import Dca.Db.Calls
import Dca.Db.Index

/-!
# Names in their buffer

`db_node_get_name` is given an array of `DB_NODE_NAME_MAX` bytes. Names of the tables, of fields
and of measurements are shorter. The names of threads, devices, interfaces and neighbours come from
outside: `strncpy` leaves a long thread name without a terminator, and `strcpy` and
`ipv6_addr_to_str` write a long name past the array.
-/

namespace Dca

open CLib

variable (db : Db)

/-- The array holds a string afterwards, whatever it held before. -/
def NameFits (g : Globals) (node : DbNode) : Prop :=
  ∀ b : NameBuf, ∃ b' name, dbNodeGetName db g node b = .ok b' ∧ b'.Shows name

/-- What the node stands for is there and has a name that is shorter than the array. -/
def ShortName (g : Globals) : DbNode → Prop
  | .null => False
  | .root _ => True
  | .fl flIdx subIdx isRoot =>
    ∃ e, db.dbIndex[flIdx.toNat]? = some e ∧
      if isRoot then e.branchName.length < dbNodeNameMax
      else ∃ s, e.staticEntries[subIdx.toNat]? = some s ∧ s.name.length < dbNodeNameMax
  | .ps _ .root => True
  | .ps pid .process =>
    pid ≤ db.env.kernelPidLast ∧
      ∃ p, db.env.schedThreads pid = some p ∧ p.name.length < dbNodeNameMax
  | .ps pid .field => pid ≤ db.env.kernelPidLast ∧ (psFieldName g.fieldCount).isSome
  | .saul _ .root => True
  | .saul dev .device =>
    ∃ i r, dev = some i ∧ db.env.saulReg[i]? = some r ∧ r.name.length < dbNodeNameMax
  | .saul dev .field => dev.isSome ∧ g.saulFieldCount = 0
  | .netif _ .root => True
  | .netif iface .iface =>
    ∃ i n, iface = some i ∧ db.env.ifaces[i]? = some n ∧ n.name.length < dbNodeNameMax
  | .netif iface .field => iface.isSome ∧ (netifFieldName g.netifFieldCount).isSome
  | .netif _ .neighbour =>
    ∃ e, entryAt g.neighbours g.numNeighbours = some e ∧
      (db.env.ipv6AddrToStr e.addr).length < dbNodeNameMax
  | .netif _ .qos => (netifSubFieldName g.netifSubFieldCount).isSome

variable {db}

/-! ## The names of fields -/

theorem psFieldName_short {fieldCount : Int8} {field : String}
    (h : psFieldName fieldCount = some field) : (CString.lit field).length < dbNodeNameMax := by
  unfold psFieldName at h
  split_ifs at h <;> (obtain rfl := Option.some.inj h; decide)

theorem psFieldName_lt {fieldCount : Int8} (h : (psFieldName fieldCount).isSome) :
    fieldCount < psCount := by
  unfold psFieldName at h
  split_ifs at h with h₀ h₁ h₂ h₃ h₄
  · exact h₀ ▸ (by decide)
  · exact h₁ ▸ (by decide)
  · exact h₂ ▸ (by decide)
  · exact h₃ ▸ (by decide)
  · exact h₄ ▸ (by decide)
  · cases h

theorem netifFieldName_short {fieldCount : UInt8} {field : String}
    (h : netifFieldName fieldCount = some field) : (CString.lit field).length < dbNodeNameMax := by
  unfold netifFieldName at h
  split_ifs at h <;> (obtain rfl := Option.some.inj h; decide)

theorem netifFieldName_lt {fieldCount : UInt8} (h : (netifFieldName fieldCount).isSome) :
    fieldCount < netifCount := by
  unfold netifFieldName at h
  split_ifs at h with h₀ h₁ h₂ h₃ h₄
  · exact h₀ ▸ (by decide)
  · exact h₁ ▸ (by decide)
  · exact h₂ ▸ (by decide)
  · exact h₃ ▸ (by decide)
  · exact h₄ ▸ (by decide)
  · cases h

theorem netifSubFieldName_short {subFieldCount : UInt8} {field : String}
    (h : netifSubFieldName subFieldCount = some field) :
    (CString.lit field).length < dbNodeNameMax := by
  unfold netifSubFieldName at h
  split_ifs at h <;> (obtain rfl := Option.some.inj h; decide)

theorem netifSubFieldName_le {subFieldCount : UInt8} (h : (netifSubFieldName subFieldCount).isSome) :
    subFieldCount ≤ qosCount := by
  unfold netifSubFieldName at h
  split_ifs at h with h₁ h₂ h₃ h₄
  · exact h₁ ▸ (by decide)
  · exact h₂ ▸ (by decide)
  · exact h₃ ▸ (by decide)
  · exact h₄ ▸ (by decide)
  · cases h

/-- Copying the name onto itself, as the leaves do, keeps it. -/
theorem shows_strncpy_str {b : NameBuf} {s : CString} (h : b.Shows s) :
    (b.strncpy b.str).Shows s := by
  rw [h.str_eq]
  exact Buf.shows_strncpy b h.length_lt

/-- An array without a terminator. -/
def fullBuf : NameBuf := ⟨List.replicate dbNodeNameMax 'x', List.length_replicate⟩

theorem not_shows_fullBuf (s : CString) : ¬ fullBuf.Shows s := by
  intro h
  exact absurd h.nul_mem (by decide)

theorem not_shows_strncpy_fullBuf (s : CString) : ¬ (fullBuf.strncpy fullBuf.str).Shows s :=
  fun h => absurd h.nul_mem (by decide)

/-! ## When a name fits -/

/-- A call that copies one name fits when the name is short. -/
theorem fits_strncpy_iff {node : DbNode} {g : Globals} (name : CString)
    (h : ∀ b, dbNodeGetName db g node b = .ok (b.strncpy name)) :
    NameFits db g node ↔ name.length < dbNodeNameMax := by
  constructor
  · intro hfits
    obtain ⟨b', s, hb, hs⟩ := hfits fullBuf
    obtain rfl := Except.ok.inj ((h fullBuf).symm.trans hb)
    exact (Buf.strncpy_shows_iff fullBuf).mp ⟨s, hs⟩
  · exact fun hlt b => ⟨_, name, h b, Buf.shows_strncpy b hlt⟩

/-- The same for a name that `strcpy` copies: a long one leaves the array. -/
theorem fits_strcpy_iff {node : DbNode} {g : Globals} (name : CString)
    (h : ∀ b, dbNodeGetName db g node b = inBounds (b.strcpy name)) :
    NameFits db g node ↔ name.length < dbNodeNameMax := by
  constructor
  · intro hfits
    by_contra hge
    obtain ⟨b', s, hb, hs⟩ := hfits fullBuf
    rw [h, Buf.strcpy_eq_none _ (Nat.le_of_not_lt hge)] at hb
    cases hb
  · intro hlt b
    obtain ⟨b', hb', hs⟩ := b.strcpy_of_lt hlt
    exact ⟨b', name, by rw [h, hb']; rfl, hs⟩

/-- A call that fails or leaves the array alone does not fit. -/
theorem not_fits {node : DbNode} {g : Globals} {b : NameBuf} (hfull : ∀ s, ¬ b.Shows s)
    (h : dbNodeGetName db g node fullBuf = .ok b ∨ ∃ t, dbNodeGetName db g node fullBuf = .error t) :
    ¬ NameFits db g node := by
  intro hfits
  obtain ⟨b', s, hb, hs⟩ := hfits fullBuf
  rcases h with h | ⟨t, h⟩
  · obtain rfl := Except.ok.inj (h.symm.trans hb)
    exact hfull s hs
  · rw [h] at hb
    cases hb

theorem nameFits_fl (g : Globals) (flIdx subIdx : UInt8) (isRoot : Bool) :
    NameFits db g (.fl flIdx subIdx isRoot) ↔ ShortName db g (.fl flIdx subIdx isRoot) := by
  unfold ShortName
  cases he : db.dbIndex[flIdx.toNat]? with
  | none =>
    have hbad : ¬ NameFits db g (.fl flIdx subIdx isRoot) :=
      not_fits not_shows_fullBuf
        (Or.inr ⟨.assert, by simp [dbNodeGetName, flNodeGetname, flEntry, he]⟩)
    simp [hbad, he]
  | some e =>
    cases isRoot with
    | true =>
      rw [fits_strncpy_iff e.branchName.toCString
        (fun b => by simp [dbNodeGetName, flNodeGetname, flEntry, he])]
      simp [he]
    | false =>
      cases hs : e.staticEntries[subIdx.toNat]? with
      | none =>
        have hbad : ¬ NameFits db g (.fl flIdx subIdx false) :=
          not_fits not_shows_fullBuf
            (Or.inr ⟨.assert, by simp [dbNodeGetName, flNodeGetname, flEntry, he, staticEntry, hs]⟩)
        simp [hbad, he, hs]
      | some s =>
        rw [fits_strncpy_iff s.name.toCString
          (fun b => by simp [dbNodeGetName, flNodeGetname, flEntry, he, staticEntry, hs])]
        simp [he, hs]

theorem nameFits_ps (g : Globals) (pid : Nat) (level : PsLevel) :
    NameFits db g (.ps pid level) ↔ ShortName db g (.ps pid level) := by
  unfold ShortName
  cases level with
  | root =>
    rw [fits_strncpy_iff (.lit "ps") (fun b => rfl)]
    exact ⟨fun _ => trivial, fun _ => by decide⟩
  | process =>
    by_cases hpid : pid ≤ db.env.kernelPidLast
    · cases hp : db.env.schedThreads pid with
      | none =>
        have hbad : ¬ NameFits db g (.ps pid .process) :=
          not_fits not_shows_fullBuf
            (Or.inr ⟨.assert, by simp [dbNodeGetName, psNodeGetname, liveThread, Env.thread, hpid, hp]⟩)
        simp [hbad, hp]
      | some p =>
        rw [fits_strncpy_iff p.name
          (fun b => by simp [dbNodeGetName, psNodeGetname, liveThread, Env.thread, hpid, hp])]
        simp [hpid, hp]
    · have hbad : ¬ NameFits db g (.ps pid .process) :=
        not_fits not_shows_fullBuf
          (Or.inr ⟨.assert, by simp [dbNodeGetName, psNodeGetname, hpid, assert]⟩)
      simp [hbad, hpid]
  | field =>
    constructor
    · intro hfits
      refine ⟨?_, ?_⟩
      · by_contra hpid
        by_cases hlt : g.fieldCount < psCount
        · exact not_fits not_shows_fullBuf (Or.inr ⟨.assert, by
            simp [dbNodeGetName, psNodeGetname, psNodeGetFieldName, hlt, hpid, assert]⟩) hfits
        · exact not_fits not_shows_fullBuf (Or.inl (by
            simp [dbNodeGetName, psNodeGetname, hlt])) hfits
      · by_contra hnone
        rw [Option.not_isSome_iff_eq_none] at hnone
        by_cases hlt : g.fieldCount < psCount
        · refine not_fits not_shows_strncpy_fullBuf ?_ hfits
          by_cases hpid : pid ≤ db.env.kernelPidLast
          · exact Or.inl (by
              simp [dbNodeGetName, psNodeGetname, psNodeGetFieldName, hlt, hpid, hnone])
          · exact Or.inr ⟨.assert, by
              simp [dbNodeGetName, psNodeGetname, psNodeGetFieldName, hlt, hpid, assert]⟩
        · exact not_fits not_shows_fullBuf (Or.inl (by
            simp [dbNodeGetName, psNodeGetname, hlt])) hfits
    · rintro ⟨hpid, hfield⟩ b
      have hlt := psFieldName_lt hfield
      obtain ⟨field, hf⟩ := Option.isSome_iff_exists.mp hfield
      refine ⟨_, .lit field, ?_, shows_strncpy_str (Buf.shows_strncpy b (psFieldName_short hf))⟩
      simp [dbNodeGetName, psNodeGetname, psNodeGetFieldName, hlt, hpid, hf]

theorem nameFits_saul (g : Globals) (dev : Option Nat) (level : SaulLevel) :
    NameFits db g (.saul dev level) ↔ ShortName db g (.saul dev level) := by
  unfold ShortName
  cases level with
  | root =>
    rw [fits_strncpy_iff (.lit "devices") (fun b => rfl)]
    exact ⟨fun _ => trivial, fun _ => by decide⟩
  | device =>
    cases dev with
    | none =>
      have hbad : ¬ NameFits db g (.saul none .device) :=
        not_fits not_shows_fullBuf (Or.inr ⟨.assert, rfl⟩)
      simp [hbad]
    | some i =>
      cases hr : db.env.saulReg[i]? with
      | none =>
        have hbad : ¬ NameFits db g (.saul (some i) .device) :=
          not_fits not_shows_fullBuf
            (Or.inr ⟨.bounds, by simp [dbNodeGetName, saulNodeGetname, Env.saul, hr]⟩)
        simp [hbad, hr]
      | some r =>
        rw [fits_strcpy_iff r.name
          (fun b => by simp [dbNodeGetName, saulNodeGetname, Env.saul, hr])]
        simp [hr]
  | field =>
    by_cases hzero : g.saulFieldCount = 0
    · cases dev with
      | none =>
        have hbad : ¬ NameFits db g (.saul none .field) := by
          refine not_fits not_shows_fullBuf (Or.inr ⟨.assert, ?_⟩)
          simp [dbNodeGetName, saulNodeGetname, saulNodeGetFieldName, hzero, saulCount, assert]
        simp [hbad]
      | some i =>
        have hname : ∀ b, dbNodeGetName db g (.saul (some i) .field) b
            = .ok (b.strncpy (b.strncpy (.lit "class")).str) := by
          intro b
          simp [dbNodeGetName, saulNodeGetname, saulNodeGetFieldName, hzero, saulCount]
          rfl
        simp only [hzero, Option.isSome_some, and_self, iff_true]
        intro b
        exact ⟨_, .lit "class", hname b, shows_strncpy_str
          (Buf.shows_strncpy b (by decide : (CString.lit "class").length < dbNodeNameMax))⟩
    · have hbad : ¬ NameFits db g (.saul dev .field) := by
        by_cases hlt : g.saulFieldCount < saulCount
        · refine not_fits not_shows_strncpy_fullBuf ?_
          cases dev with
          | none =>
            exact Or.inr ⟨.assert, by
              simp [dbNodeGetName, saulNodeGetname, saulNodeGetFieldName, hlt, assert]⟩
          | some i =>
            exact Or.inl (by
              simp [dbNodeGetName, saulNodeGetname, saulNodeGetFieldName, hlt, hzero])
        · exact not_fits not_shows_fullBuf (Or.inl (by
            simp [dbNodeGetName, saulNodeGetname, hlt]))
      simp [hbad, hzero]

theorem nameFits_netif_field (g : Globals) (iface : Option Nat) :
    NameFits db g (.netif iface .field)
      ↔ iface.isSome ∧ (netifFieldName g.netifFieldCount).isSome := by
  constructor
  · intro hfits
    refine ⟨?_, ?_⟩
    · by_contra hiface
      by_cases hlt : g.netifFieldCount < netifCount
      · exact not_fits not_shows_fullBuf (Or.inr ⟨.assert, by
          simp [dbNodeGetName, netifNodeGetname, netifNodeGetFieldName, hlt, hiface, assert]⟩) hfits
      · exact not_fits not_shows_fullBuf (Or.inl (by
          simp [dbNodeGetName, netifNodeGetname, hlt])) hfits
    · by_contra hnone
      rw [Option.not_isSome_iff_eq_none] at hnone
      by_cases hlt : g.netifFieldCount < netifCount
      · refine not_fits not_shows_strncpy_fullBuf ?_ hfits
        cases iface with
        | none =>
          exact Or.inr ⟨.assert, by
            simp [dbNodeGetName, netifNodeGetname, netifNodeGetFieldName, hlt, assert]⟩
        | some i =>
          exact Or.inl (by
            simp [dbNodeGetName, netifNodeGetname, netifNodeGetFieldName, hlt, hnone])
      · exact not_fits not_shows_fullBuf (Or.inl (by
          simp [dbNodeGetName, netifNodeGetname, hlt])) hfits
  · rintro ⟨hiface, hfield⟩ b
    have hlt := netifFieldName_lt hfield
    obtain ⟨field, hf⟩ := Option.isSome_iff_exists.mp hfield
    refine ⟨_, .lit field, ?_, shows_strncpy_str (Buf.shows_strncpy b (netifFieldName_short hf))⟩
    simp [dbNodeGetName, netifNodeGetname, netifNodeGetFieldName, hlt, hiface, hf]

theorem nameFits_netif_qos (g : Globals) (iface : Option Nat) :
    NameFits db g (.netif iface .qos) ↔ (netifSubFieldName g.netifSubFieldCount).isSome := by
  constructor
  · intro hfits
    by_contra hnone
    rw [Option.not_isSome_iff_eq_none] at hnone
    by_cases hle : g.netifSubFieldCount ≤ qosCount
    · exact not_fits not_shows_strncpy_fullBuf (Or.inl (by
        simp [dbNodeGetName, netifNodeGetname, netifNodeGetSubFieldName, hle, hnone])) hfits
    · exact not_fits not_shows_fullBuf (Or.inl (by
        simp [dbNodeGetName, netifNodeGetname, hle])) hfits
  · intro hfield b
    have hle := netifSubFieldName_le hfield
    obtain ⟨field, hf⟩ := Option.isSome_iff_exists.mp hfield
    refine ⟨_, .lit field, ?_, shows_strncpy_str (Buf.shows_strncpy b (netifSubFieldName_short hf))⟩
    simp [dbNodeGetName, netifNodeGetname, netifNodeGetSubFieldName, hle, hf]

theorem nameFits_netif (g : Globals) (iface : Option Nat) (level : NetifLevel) :
    NameFits db g (.netif iface level) ↔ ShortName db g (.netif iface level) := by
  unfold ShortName
  cases level with
  | root =>
    rw [fits_strncpy_iff (.lit "netif") (fun b => rfl)]
    exact ⟨fun _ => trivial, fun _ => by decide⟩
  | iface =>
    cases iface with
    | none =>
      have hbad : ¬ NameFits db g (.netif none .iface) :=
        not_fits not_shows_fullBuf (Or.inr ⟨.assert, rfl⟩)
      simp [hbad]
    | some i =>
      cases hn : db.env.ifaces[i]? with
      | none =>
        have hbad : ¬ NameFits db g (.netif (some i) .iface) :=
          not_fits not_shows_fullBuf
            (Or.inr ⟨.bounds, by simp [dbNodeGetName, netifNodeGetname, Env.iface, hn]⟩)
        simp [hbad, hn]
      | some n =>
        rw [fits_strcpy_iff n.name
          (fun b => by simp [dbNodeGetName, netifNodeGetname, Env.iface, hn])]
        simp [hn]
  | field => exact nameFits_netif_field g iface
  | neighbour =>
    have hname : ∀ b, dbNodeGetName db g (.netif iface .neighbour) b
        = (readIp db.env g.neighbours g.numNeighbours b).map Prod.fst := fun _ => rfl
    cases he : entryAt g.neighbours g.numNeighbours with
    | none =>
      have hbad : ¬ NameFits db g (.netif iface .neighbour) := by
        refine not_fits not_shows_fullBuf ?_
        rw [hname]
        rcases readIp_none db.env he with hr | hr
        · exact Or.inl (by rw [hr]; rfl)
        · exact Or.inr ⟨.null, by rw [hr]; rfl⟩
      simp [hbad]
    | some e =>
      rw [fits_strcpy_iff (db.env.ipv6AddrToStr e.addr) (fun b => by
        rw [hname, readIp_eq db.env he]
        cases inBounds (b.strcpy (db.env.ipv6AddrToStr e.addr)) <;> rfl)]
      simp
  | qos => exact nameFits_netif_qos g iface

variable (db) in
/-- The name of every node that a lookup finds in a reachable state fits. -/
def NamesFit : Prop :=
  ∀ g, Reachable db.dbIndex g →
    ∀ (fuel : Nat) (path : CString) (child : DbNode) (nameBuf : NameBuf) (found : Found),
      dbFindNodeByPath db fuel g path child nameBuf = .ok found → found.code = 0 →
      NameFits db found.g found.node

/-- The small board with a thread whose name has 30 characters. -/
def longNameEnv : Env :=
  { smallEnv with
    schedThreads := fun pid =>
      if pid = 1 then some ⟨.lit "idle_thread_of_the_radio_stack", .running, 15, 256, 128⟩
      else none }

/-- A thread name of 30 characters is not terminated. -/
theorem not_namesFit : ¬ NamesFit (.ofEnv {} longNameEnv) := by
  intro h
  have hfits := h {} ⟨longNameEnv, .boot longNameEnv, .refl _, rfl⟩ 8 (.lit "/runtime/ps/idle") .null
    (Buf.zero _) ⟨{}, 0, .ps 1 .process⟩ (by decide) rfl
  exact absurd ((nameFits_ps _ _ _).mp hfits) (by
    rintro ⟨-, p, hp, hlt⟩
    obtain rfl := Option.some.inj hp
    exact absurd hlt (by decide))

/--
**The name of a node fits exactly when what it stands for is there and has a short name.** The
names of the tables, the fields and the measurements are short, so this is a condition on the names
of threads, devices and interfaces and on the text of an address.
-/
theorem nameFits_iff (db : Db) (g : Globals) (node : DbNode) :
    NameFits db g node ↔ ShortName db g node := by
  cases node with
  | null =>
    have hbad : ¬ NameFits db g .null := not_fits not_shows_fullBuf (Or.inr ⟨.assert, rfl⟩)
    exact ⟨fun h => absurd h hbad, fun h => h.elim⟩
  | root idx =>
    rw [fits_strncpy_iff (.lit "/") (fun b => rfl)]
    exact ⟨fun _ => trivial, fun _ => by decide⟩
  | fl flIdx subIdx isRoot => exact nameFits_fl g flIdx subIdx isRoot
  | ps pid level => exact nameFits_ps g pid level
  | saul dev level => exact nameFits_saul g dev level
  | netif iface level => exact nameFits_netif g iface level

end Dca
