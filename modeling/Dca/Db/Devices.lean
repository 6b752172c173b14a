import Dca.Db.Enumeration
import Dca.Db.Found
import Dca.Db.History

/-!
# SAUL devices

`/saul/devices` lists the registry. No operation moves `_saul_field_count` away from 0, so a device
has its class as the only child whenever it is asked, and the way to the class of a device leads
there from every state that can be reached.
-/

namespace Dca

open CLib

variable {db : Db}

/-! ## Enumerations -/

/-- A list of a kernel, whose links the iterator follows. -/
theorem supplies_links {len : Nat} (node : Option Nat → DbNode) (item : Nat → DbNode)
    (hnext : ∀ i around, takeChild db (node (some i)) around = .ok (node (linkAt len (i + 1)), item i))
    (hend : ∀ around, takeChild db (node none) around = .ok (node none, .null)) (n : Nat) {i : Nat}
    (hn : i + n = len) :
    Supplies (takeChild db) (fun _ => True) .null (node (linkAt len i))
      ((List.range' i n).map item) := by
  induction n generalizing i with
  | zero =>
    rw [linkAt_of_le (by omega)]
    exact .nil fun around _ => hend around
  | succ n ih =>
    rw [linkAt_of_lt (by omega), List.range'_succ, List.map_cons]
    exact .cons (fun around _ => hnext i around) (ih (by omega))

theorem supplies_devices (n : Nat) {i : Nat} (hn : i + n = db.env.saulReg.length) :
    Supplies (takeChild db) (fun _ => True) .null (.saul (linkAt db.env.saulReg.length i) .root)
      ((List.range' i n).map fun j => .saul (some j) .device) :=
  supplies_links (fun dev => .saul dev .root) (fun i => .saul (some i) .device)
    (fun i around => takeChild_eq (next_saulRoot around.2 i))
    (fun around => takeChild_eq (next_saulRoot_end around.2)) n hn

theorem supplies_class (dev : Option Nat) :
    Supplies (takeChild db) (fun around => around.1.saulFieldCount = 0) .null (.saul dev .field)
      [] :=
  .nil fun around hzero => takeChild_eq (next_saulField around.2 hzero)

theorem supplies_device (i : Nat) :
    Supplies (takeChild db) (fun around => around.1.saulFieldCount = 0) .null
      (.saul (some i) .device) [.saul (some i) .field] :=
  .cons (fun around hzero => takeChild_eq (next_device around.2 hzero)) (supplies_class _)

/-! ## The class of a device -/

/-- The leaf is the text `class` with the class of the device, in every array that has room for
it. -/
structure ShowsClass (db : Db) (g : Globals) (i : Nat) (r : SaulReg) : Prop where
  type : dbNodeGetType db g (.saul (some i) .field) = .ok .str
  name : Names db g (.saul (some i) .field) (.lit "class")
  value : ∀ (n bufsize : Nat) (value : Buf n), (db.env.saulClassToStr r.type).length < n →
    ∃ b, dbNodeGetStrValue db g (.saul (some i) .field) value bufsize
        = .ok (b, (db.env.saulClassToStr r.type).length) ∧
      b.Shows (db.env.saulClassToStr r.type)

theorem showsClass {g : Globals} (hzero : g.saulFieldCount = 0) {i : Nat} {r : SaulReg}
    (hr : db.env.saulReg[i]? = some r) : ShowsClass db g i r where
  type := rfl
  name := names_saulField i hzero
  value := by
    intro n bufsize value hlt
    obtain ⟨b, hb, hs⟩ := value.strcpy_of_lt hlt
    refine ⟨b, ?_, hs⟩
    simp [dbNodeGetStrValue, dbNodeGetType, saulNodeGettype, saulNodeGetstrValue, hzero, Env.saul,
      hr, hb, inBounds]

/-! ## The way to a class -/

/-- `saul/devices/<name>/class` -/
def classPath (name : CString) : CString :=
  ⟨"saul/devices/".toList ++ (name.chars ++ "/class".toList), by
    rw [List.mem_append, List.mem_append]
    rintro (h | h | h)
    · exact absurd h (by decide)
    · exact name.noNul h
    · exact absurd h (by decide)⟩

theorem pathComponents_classPath {name : CString} (hname : PathName name) :
    pathComponents (classPath name) = [(CString.lit "saul").chars,
      GetNodeFn.dbNewSaulNode.nodeName.toCString.chars, name.chars, (CString.lit "class").chars] := by
  unfold pathComponents classPath
  dsimp only
  rw [show "saul/devices/".toList ++ (name.chars ++ "/class".toList)
      = "saul".toList ++ '/' :: ("devices".toList ++ '/' :: (name.chars ++ '/' :: "class".toList))
    from rfl, components_append_sep (by decide) (by decide),
    components_append_sep (by decide) (by decide), components_append_sep hname.1 hname.2,
    components_of_not_mem (by decide) (by decide)]
  rfl

section Lookup

variable {cfg : Config} {env : Env}

/-- The row of the devices. -/
def saulRow (env : Env) : TableRow :=
  ⟨GetNodeFn.dbNewSaulNode.nodeName, .inner, GetNodeFn.dbNewSaulNode.node env⟩

variable (env) in
/-- The rows on the way to the devices. -/
theorem saulRow_mem (hsaul : cfg.saul = true) :
    ∃ flIdx : UInt8, (dbIndex cfg)[flIdx.toNat]? = some saulEntry ∧
      ⟨saulEntry.branchName, .inner, dbNewFlNode flIdx⟩ ∈ tableRows (.ofEnv cfg env) dbGetRoot ∧
        saulRow env ∈ tableRows (.ofEnv cfg env) (dbNewFlNode flIdx) := by
  have hbranch : ∃ flIdx : UInt8, (dbIndex cfg)[flIdx.toNat]? = some saulEntry := by
    obtain ⟨ps, network, saul⟩ := cfg
    obtain rfl : saul = true := hsaul
    cases network with
    | true => exact ⟨3, rfl⟩
    | false => exact ⟨2, rfl⟩
  obtain ⟨flIdx, he⟩ := hbranch
  refine ⟨flIdx, he, List.mem_of_getElem? (i := flIdx.toNat) ?_, ?_⟩
  · have he' : (Db.ofEnv cfg env).dbIndex[flIdx.toNat]? = some saulEntry := he
    rw [dbGetRoot, tableRows, List.getElem?_mapIdx, he', Option.map_some, UInt8.ofNat_toNat]
  · rw [tableRows_branch he, DbFlEntry.rows]
    exact List.mem_append_right _ (List.mem_singleton_self _)

/-- The way to a class changes no count. -/
theorem descends_class_same (hsaul : cfg.saul = true)
    (hnames : SiblingNames (env.saulReg.map (·.name.chars))) {i : Nat} {r : SaulReg}
    (hr : env.saulReg[i]? = some r) {g : Globals} (hzero : g.saulFieldCount = 0) :
    Descends (.ofEnv cfg env) (fun _ => False)
      (fun g' node => SameCounts g g' ∧ node = .saul (some i) .field)
      (pathComponents (classPath r.name)) g dbGetRoot := by
  have hlt : i < env.saulReg.length := (List.getElem?_eq_some_iff.mp hr).1
  rw [← map_deviceName] at hnames
  have hmem : i ∈ List.range' 0 env.saulReg.length := List.mem_range'_1.mpr ⟨Nat.zero_le _, by omega⟩
  have hname : env.deviceName i = r.name := by simp only [Env.deviceName, hr]
  rw [pathComponents_classPath (hname ▸ hnames.pathName hmem), ← hname]
  obtain ⟨flIdx, he, hbranch, hdevices⟩ := saulRow_mem env hsaul
  refine folder_root.descends hbranch fun g₁ hg₁ => ?_
  refine (folder_branch he).descends hdevices fun g₂ hg₂ => ?_
  have hzero₂ : g₂.saulFieldCount = 0 :=
    hg₂.saulFieldCount.trans (hg₁.saulFieldCount.trans hzero)
  have hlists : Lists (.ofEnv cfg env) env.deviceName _ ⟨g₂, dbNewSaulNode env, dbNewSaulNode env⟩
      (List.range' 0 env.saulReg.length) :=
    lists_devices _ (Nat.zero_add _) (fun j => hnames.length_lt) g₂ _
  refine .cons hlists hnames hmem ?_
  rintro c ⟨hg, hchild⟩
  rw [hg, hchild]
  refine .cons (lists_class i hzero₂ _) siblingNames_class (List.mem_singleton_self _) ?_
  rintro c' ⟨hg', hchild'⟩
  refine .nil ⟨?_, hchild'⟩
  rw [hg']
  exact hg₁.trans hg₂

/-- **The path of a class leads to the leaf of the device.** -/
theorem descends_class (hsaul : cfg.saul = true)
    (hnames : SiblingNames (env.saulReg.map (·.name.chars))) {i : Nat} {r : SaulReg}
    (hr : env.saulReg[i]? = some r) {g : Globals} (hzero : g.saulFieldCount = 0) :
    Descends (.ofEnv cfg env) (fun _ => False) (fun _ node => node = .saul (some i) .field)
      (pathComponents (classPath r.name)) g dbGetRoot := fun nameBuf =>
  (descends_class_same hsaul hnames hr hzero nameBuf).mono (fun _ => id) fun _ h => h.2

end Lookup

/--
The devices are listed and resolved in the state `g`: `_saul_field_count` is 0, the registry is
enumerated in its order, each device has its class as its only child, and the path of the class
leads to it.
-/
structure DevicesFaithful (cfg : Config) (env : Env) (g : Globals) : Prop where
  counter : g.saulFieldCount = 0
  devices : Enumerates (.ofEnv cfg env) (fun _ => True) (dbNewSaulNode env)
    ((List.range env.saulReg.length).map fun i => .saul (some i) .device)
  child : ∀ i < env.saulReg.length, Enumerates (.ofEnv cfg env) (fun g => g.saulFieldCount = 0)
    (.saul (some i) .device) [.saul (some i) .field]
  leaf : ∀ i < env.saulReg.length, Enumerates (.ofEnv cfg env) (fun g => g.saulFieldCount = 0)
    (.saul (some i) .field) []
  value : ∀ i r, env.saulReg[i]? = some r → ShowsClass (.ofEnv cfg env) g i r
  lookup : SiblingNames (env.saulReg.map (·.name.chars)) → ∀ i r, env.saulReg[i]? = some r →
    ∀ (child : DbNode) (nameBuf : NameBuf), ∃ N found,
      (∀ fuel ≥ N,
        dbFindNodeByPath (.ofEnv cfg env) fuel g (classPath r.name) child nameBuf = .ok found) ∧
      found.code = 0 ∧ found.node = .saul (some i) .field

/--
**SAUL devices are listed and resolved faithfully** after every history of operations.
-/
theorem devices_faithful (cfg : Config) (hsaul : cfg.saul = true) (env : Env)
    (neighbours : List NeighborEntryl) (ops : List DbOp) (s : Session)
    (hs : History (.ofEnv cfg env) (.boot neighbours) ops s) : DevicesFaithful cfg env s.g where
  counter := kept_saulFieldCount.history hs rfl
  devices := by
    rw [List.range_eq_range']
    refine enumerates_of_supplies ?_
    exact supplies_devices env.saulReg.length (Nat.zero_add _)
  child := fun i _ => enumerates_of_supplies (supplies_device i)
  leaf := fun i _ => enumerates_of_supplies (supplies_class (some i))
  value := fun i r hr => showsClass (kept_saulFieldCount.history hs rfl) hr
  lookup := by
    intro hnames i r hr child nameBuf
    have hzero : s.g.saulFieldCount = 0 := kept_saulFieldCount.history hs rfl
    have hends : Ends (fun _ => False) _ fun fuel =>
        dbFindNodeByPath (.ofEnv cfg env) fuel s.g (classPath r.name) child nameBuf :=
      (descends_class hsaul hnames hr hzero).find (fun _ => id) child nameBuf
    obtain ⟨N, result, hresult, hout⟩ := hends.exists_fuel
    cases result with
    | error t => exact hout.elim
    | ok found =>
      rcases hout with ⟨hcode, hnode⟩ | ⟨-, himpossible⟩
      · exact ⟨N, found, hresult, hcode, hnode⟩
      · exact himpossible.elim

theorem devices_faithful_small :
    DevicesFaithful {} smallEnv ({ fieldCount := 1 } : Globals) :=
  devices_faithful {} rfl smallEnv [] [.find (.lit "/runtime/ps/idle/state")]
    ⟨{ fieldCount := 1 }, [.ps 1 .field]⟩
    (.cons ⟨.null, Buf.zero _, Buf.zero _⟩ 8 (by decide) (.nil _))

end Dca
