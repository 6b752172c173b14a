import Dca.Db.Children
import Dca.Db.NodeName
import Dca.Db.Text

/-!
# Queries keep to what the operations assert

A query looks up a path and then lists the children or reads the value of the node. Every node
that a lookup or an enumeration produces names something that is there (`Sound`), and the node
that is iterated can be asked for its next child (`Walkable`). Both are kept by every call, also
where a call leaves the child variable alone, since a lookup starts with a copy of the node in it.
-/

namespace Dca

open CLib

/-! ## The next pid -/

/-- Slot `pid` holds a thread. -/
def Env.Live (env : Env) (pid : Nat) : Prop :=
  kernelPidFirst ≤ pid ∧ pid ≤ env.kernelPidLast ∧ (env.schedThreads pid).isSome

/-- A pid as `_get_next_pid` returns it: a live thread or the end of the table. -/
def Env.PidOrEnd (env : Env) (pid : Nat) : Prop := env.Live pid ∨ pid = env.kernelPidLast + 1

theorem Env.PidOrEnd.fits {env : Env} {pid : Nat} (h : env.PidOrEnd pid) :
    pid ≤ env.kernelPidMax := by
  have hlast := env.kernelPidLast_lt
  rcases h with hlive | rfl
  · exact hlive.2.1.trans (Nat.le_of_lt hlast)
  · exact hlast

theorem getNextPidLoop_eq (env : Env) (n pid : Nat) (hn : pid + n = env.kernelPidLast + 1)
    (hpos : 0 < n) :
    ∃ next, getNextPidLoop env n pid = .ok next ∧ pid < next ∧ env.PidOrEnd next := by
  induction n generalizing pid with
  | zero => omega
  | succ n ih =>
    unfold getNextPidLoop
    by_cases hend : pid + 1 = env.kernelPidLast + 1
    · rw [if_pos hend]
      exact ⟨_, rfl, by omega, Or.inr rfl⟩
    · rw [if_neg hend]
      cases hp : env.schedThreads (pid + 1) with
      | none =>
        obtain ⟨next, hnext, hlt, hlive⟩ := ih (pid + 1) (by omega) (by omega)
        exact ⟨next, hnext, by omega, hlive⟩
      | some p =>
        refine ⟨pid + 1, rfl, by omega, Or.inl ⟨?_, by omega, by rw [hp]; rfl⟩⟩
        show 1 ≤ pid + 1
        omega

/-- **The next pid is behind the pid**, and it is a live thread or the end of the table. -/
theorem getNextPid_eq {env : Env} {pid : Nat} (hfirst : kernelPidFirst ≤ pid)
    (hlast : pid ≤ env.kernelPidLast) :
    ∃ next, getNextPid env pid = .ok next ∧ pid < next ∧ env.PidOrEnd next := by
  obtain ⟨next, hnext, hlt, hlive⟩ :=
    getNextPidLoop_eq env (env.kernelPidLast + 1 - pid) pid (by omega) (by omega)
  refine ⟨next, ?_, hlt, hlive⟩
  have hle : pid ≤ env.kernelPidLast + 1 := by omega
  simp [getNextPid, hfirst, hle, hnext]

variable (db : Db)

/-! ## Nodes that name something -/

/-- The pointer is NULL or that of an entry of a list of this length. -/
def LinkTo (len : Nat) (p : Option Nat) : Prop := ∀ i, p = some i → i < len

theorem linkTo_linkAt (len i : Nat) : LinkTo len (linkAt len i) := by
  intro j hj
  unfold linkAt at hj
  split_ifs at hj with hlt
  obtain rfl := Option.some.inj hj
  exact hlt

theorem linkTo_some {len i : Nat} (h : i < len) : LinkTo len (some i) := by
  rintro j hj
  obtain rfl := Option.some.inj hj
  exact h

/-- What the node names is there. -/
def Sound : DbNode → Prop
  | .null | .root _ => True
  | .fl flIdx subIdx isRoot =>
    ∃ e, db.dbIndex[flIdx.toNat]? = some e ∧
      (isRoot = false → ∃ s, e.staticEntries[subIdx.toNat]? = some s)
  | .ps pid .root => db.env.PidOrEnd pid
  | .ps pid _ => db.env.Live pid
  | .saul dev .root => LinkTo db.env.saulReg.length dev
  | .saul dev _ => ∃ i < db.env.saulReg.length, dev = some i
  | .netif iface .root => LinkTo db.env.ifaces.length iface
  | .netif iface _ => ∃ i < db.env.ifaces.length, iface = some i

/-- The node can be asked for its next child. -/
def Walkable : DbNode → Prop
  | .null => False
  | .root _ => True
  | .fl flIdx _ _ => ∃ e, db.dbIndex[flIdx.toNat]? = some e
  | .ps pid .root => db.env.PidOrEnd pid
  | .ps pid .process => db.env.Live pid
  | .ps _ .field => True
  | .saul dev _ => LinkTo db.env.saulReg.length dev
  | .netif iface level =>
    LinkTo db.env.ifaces.length iface ∧ (level = .neighbour ∨ level = .qos → iface.isSome)

/-- The invariant of lookups and enumerations. -/
structure SoundCursor (c : Cursor) : Prop where
  node : Walkable db c.node
  child : Sound db c.child

variable {db}

theorem Sound.walkable {node : DbNode} (h : Sound db node) (hne : node ≠ .null) :
    Walkable db node := by
  cases node with
  | null => exact hne rfl
  | root _ => trivial
  | fl flIdx subIdx isRoot =>
    obtain ⟨e, he, -⟩ := h
    exact ⟨e, he⟩
  | ps pid level =>
    cases level with
    | root => exact h
    | process => exact h
    | field => trivial
  | saul dev level =>
    cases level with
    | root => exact h
    | device | field =>
      obtain ⟨i, hi, rfl⟩ := h
      exact linkTo_some hi
  | netif iface level =>
    cases level with
    | root => exact ⟨h, by simp⟩
    | iface | field | neighbour | qos =>
      obtain ⟨i, hi, rfl⟩ := h
      exact ⟨linkTo_some hi, fun _ => rfl⟩

/-! ## What can be too long -/

/-- Some `strcpy` of a name leaves the name buffer: that of a device, of an interface, or of the
address of a neighbour. -/
def LongName (env : Env) (addrs : List Ipv6Addr) : Prop :=
  (∃ r ∈ env.saulReg, dbNodeNameMax ≤ r.name.length) ∨
    (∃ n ∈ env.ifaces, dbNodeNameMax ≤ n.name.length) ∨
    ∃ a ∈ addrs, dbNodeNameMax ≤ (env.ipv6AddrToStr a).length

/-- The name of a thread leaves no room for a terminator. -/
def LongThread (env : Env) : Prop :=
  ∃ pid p, env.schedThreads pid = some p ∧ dbNodeNameMax ≤ p.name.length

/-- An array of `n` bytes has room for every text that a getter writes. -/
def Env.TextsFit (env : Env) (n : Nat) : Prop :=
  88 < n ∧ env.board.riotBoard.length + 1 < n ∧ env.board.riotMcu.length + 1 < n ∧
    ∀ r ∈ env.saulReg, (env.saulClassToStr r.type).length < n

/-- The addresses in the neighbour list. -/
def Globals.addrs (g : Globals) : List Ipv6Addr := g.neighbours.map NeighborEntryl.addr

/-- The traps that are left: arrays if something is too long, links, and loops that are cut off. -/
def NoAssert (long : Prop) (t : Trap) : Prop := t ≠ .assert ∧ t ≠ .badCall ∧ (t = .bounds → long)

/-- The traps of one call: a NULL link is followed, or an array is left by what is too long. -/
def Broken (long : Prop) (t : Trap) : Prop := t = .null ∨ (t = .bounds ∧ long)

section Traps

variable {long long' : Prop}

theorem broken_null : Broken long .null := Or.inl rfl

theorem broken_bounds (h : long) : Broken long .bounds := Or.inr ⟨rfl, h⟩

theorem Broken.noAssert {t : Trap} (h : Broken long t) (hlong : long → long') :
    NoAssert long' t := by
  rcases h with rfl | ⟨rfl, h⟩
  · exact ⟨by simp, by simp, by simp⟩
  · exact ⟨by simp, by simp, fun _ => hlong h⟩

theorem noAssert_of_broken {α : Type} {Q : α → Prop} {x : Res α} (h : Outcome (Broken long) Q x)
    (hlong : long → long') : Outcome (NoAssert long') Q x :=
  h.mono (fun _ ht => ht.noAssert hlong) fun _ => id

theorem broken_mono {α : Type} {Q : α → Prop} {x : Res α} (h : Outcome (Broken long) Q x)
    (hlong : long → long') : Outcome (Broken long') Q x :=
  h.mono (fun _ ht => ht.imp_right fun hb => ⟨hb.1, hlong hb.2⟩) fun _ => id

end Traps

/-- Slot `KERNEL_PID_FIRST` is occupied. -/
def Env.FirstThread (env : Env) : Prop := env.Live kernelPidFirst

theorem sound_getNodeFn (hfirst : db.env.FirstThread) (f : GetNodeFn) :
    Sound db (f.node db.env) := by
  cases f with
  | dbNewPsNode => exact Or.inl hfirst
  | dbNewSaulNode => exact linkTo_linkAt _ 0
  | dbNewNetifNode => exact linkTo_linkAt _ 0

/-! ## The calls of a lookup -/

section Next

variable {E : Trap → Prop}

theorem next_fl (hfirst : db.env.FirstThread) {g : Globals} {child : DbNode} {flIdx subIdx : UInt8}
    {isRoot : Bool} (h : SoundCursor db ⟨g, .fl flIdx subIdx isRoot, child⟩) :
    Outcome E (SoundCursor db)
      (flNodeGetnextChild db ⟨g, .fl flIdx subIdx isRoot, child⟩ flIdx subIdx isRoot) := by
  obtain ⟨e, he⟩ := h.node
  unfold flNodeGetnextChild
  rw [flEntry_eq he, ok_bind]
  have hend : SoundCursor db ⟨g, .fl flIdx subIdx isRoot, .null⟩ := ⟨⟨e, he⟩, trivial⟩
  split_ifs with hroot hstatic
  · refine ⟨⟨e, he⟩, ⟨e, he, fun _ => ?_⟩⟩
    exact ⟨_, List.getElem?_eq_getElem hstatic⟩
  · dsimp only
    cases hd : e.dynamicEntries[subIdx.toNat - e.staticEntries.length]? with
    | none => exact hend
    | some d =>
      dsimp only
      rw [d.getNodeFn.call_eq]
      exact ⟨⟨e, he⟩, sound_getNodeFn hfirst d.getNodeFn⟩
  · exact hend

theorem next_ps {g : Globals} {child : DbNode} {pid : Nat} {level : PsLevel}
    (h : SoundCursor db ⟨g, .ps pid level, child⟩) :
    Outcome E (SoundCursor db)
      (psNodeGetnextChild db.env ⟨g, .ps pid level, child⟩ pid level) := by
  cases level with
  | root =>
    rcases h.node with hlive | rfl
    · obtain ⟨next, hnext, -, hend⟩ := getNextPid_eq hlive.1 hlive.2.1
      simp only [psNodeGetnextChild, if_pos hlive.2.1, hnext, ok_bind, pure_eq_ok]
      exact ⟨hend, hlive⟩
    · have hle : ¬ db.env.kernelPidLast + 1 ≤ db.env.kernelPidLast := by omega
      simp only [psNodeGetnextChild, if_neg hle, pure_eq_ok]
      exact ⟨Or.inr rfl, trivial⟩
  | process =>
    have hlive : db.env.Live pid := h.node
    simp only [psNodeGetnextChild]
    split_ifs
    · obtain ⟨next, hnext, -, -⟩ := getNextPid_eq hlive.1 hlive.2.1
      rw [hnext, ok_bind]
      exact ⟨trivial, hlive⟩
    · exact h
  | field =>
    simp only [psNodeGetnextChild]
    split_ifs
    · exact ⟨trivial, trivial⟩
    · exact ⟨trivial, h.child⟩

theorem next_saul {g : Globals} {child : DbNode} {dev : Option Nat} {level : SaulLevel}
    (h : SoundCursor db ⟨g, .saul dev level, child⟩) :
    Outcome E (SoundCursor db)
      (saulNodeGetnextChild db.env ⟨g, .saul dev level, child⟩ dev level) := by
  cases level with
  | root =>
    cases dev with
    | none => exact ⟨h.node, trivial⟩
    | some i => exact ⟨linkTo_linkAt _ _, i, h.node i rfl, rfl⟩
  | device =>
    cases dev with
    | none => exact h
    | some i =>
      simp only [saulNodeGetnextChild]
      split_ifs
      · exact ⟨linkTo_linkAt _ _, i, h.node i rfl, rfl⟩
      · exact h
  | field =>
    simp only [saulNodeGetnextChild]
    split_ifs
    · exact ⟨h.node, trivial⟩
    · exact ⟨h.node, h.child⟩

/-- Going to the next neighbour stays with the interface. -/
theorem sound_netifNextNeighbour {g : Globals} {child : DbNode} {iface : Option Nat}
    {level : NetifLevel} (hiface : ∃ i < db.env.ifaces.length, iface = some i) :
    Outcome E (SoundCursor db)
      (netifNextNeighbour (netifGetnextChildDepth db.env 1) ⟨g, .netif iface level, child⟩ iface) := by
  have hwalk : ∀ level, Walkable db (.netif iface level) := by
    obtain ⟨i, hi, rfl⟩ := hiface
    exact fun _ => ⟨linkTo_some hi, fun _ => rfl⟩
  dsimp only [netifNextNeighbour]
  split_ifs with hzero
  · exact ⟨hwalk _, trivial⟩
  · have hpos : ¬ g.numNeighbours - 1 ≤ 0 := fun hle => hzero (UInt8.le_zero_iff.mp hle)
    simp only [netifGetnextChildDepth, netifGetnextChildBody, if_neg hpos, if_true]
    exact ⟨hwalk _, hiface⟩

/-- Above the neighbours the interface may be behind the last one. -/
theorem walkable_netif_outer {level : NetifLevel} (h : level = .root ∨ level = .field)
    {iface : Option Nat} (hlink : LinkTo db.env.ifaces.length iface) :
    Walkable db (.netif iface level) := by
  refine ⟨hlink, fun hinner => ?_⟩
  rcases h with rfl | rfl <;> rcases hinner with hl | hl <;> cases hl

theorem netifIter_link (env : Env) (iface : Option Nat) :
    LinkTo env.ifaces.length (env.netifIter iface) := by
  cases iface with
  | none => exact linkTo_linkAt _ _
  | some i => exact linkTo_linkAt _ _

/-- A link that is not NULL. -/
theorem entry_of_linkTo {len : Nat} {p : Option Nat} (h : LinkTo len p) (hsome : p.isSome) :
    ∃ i < len, p = some i := by
  obtain ⟨i, rfl⟩ := Option.isSome_iff_exists.mp hsome
  exact ⟨i, h i rfl, rfl⟩

theorem next_netif {g : Globals} {child : DbNode} {iface : Option Nat} {level : NetifLevel}
    (h : SoundCursor db ⟨g, .netif iface level, child⟩) :
    Outcome E (SoundCursor db)
      (netifNodeGetnextChild db.env ⟨g, .netif iface level, child⟩) := by
  obtain ⟨hlink, hinner⟩ : Walkable db (.netif iface level) := h.node
  rw [netifNodeGetnextChild, netifGetnextChildDepth]
  cases level with
  | root =>
    cases iface with
    | none => exact ⟨h.node, trivial⟩
    | some i =>
      exact ⟨walkable_netif_outer (Or.inl rfl) (netifIter_link _ _), i, hlink i rfl, rfl⟩
  | iface =>
    simp only [netifGetnextChildBody]
    split_ifs with hmore
    · exact ⟨walkable_netif_outer (Or.inr rfl) (netifIter_link _ _),
        entry_of_linkTo hlink (Option.isSome_iff_ne_none.mpr hmore.1)⟩
    · exact h
  | field =>
    simp only [netifGetnextChildBody]
    split_ifs with hn
    · have hiface := Option.isSome_iff_ne_none.mpr hn.2.1
      exact ⟨⟨hlink, fun _ => hiface⟩, entry_of_linkTo hlink hiface⟩
    · exact ⟨h.node, h.child⟩
    · exact ⟨h.node, trivial⟩
  | neighbour =>
    have hiface := entry_of_linkTo hlink (hinner (Or.inl rfl))
    have hwalk : ∀ level, Walkable db (.netif iface level) :=
      fun _ => ⟨hlink, fun _ => hinner (Or.inl rfl)⟩
    simp only [netifGetnextChildBody]
    split_ifs
    · exact ⟨hwalk _, trivial⟩
    · exact ⟨hwalk _, hiface⟩
    · exact ⟨hwalk _, hiface⟩
    · exact sound_netifNextNeighbour hiface
  | qos =>
    have hiface := entry_of_linkTo hlink (hinner (Or.inr rfl))
    have hwalk : ∀ level, Walkable db (.netif iface level) :=
      fun _ => ⟨hlink, fun _ => hinner (Or.inr rfl)⟩
    simp only [netifGetnextChildBody]
    split_ifs
    · exact ⟨hwalk _, h.child⟩
    · exact ⟨hwalk _, trivial⟩
    · exact sound_netifNextNeighbour hiface

/-- **A walkable node yields sound children.** -/
theorem SoundCursor.next (hfirst : db.env.FirstThread) {c : Cursor} (h : SoundCursor db c) :
    Outcome E (SoundCursor db) (dbNodeGetNextChild db c) := by
  obtain ⟨g, node, child⟩ := c
  cases node with
  | null => exact h.node.elim
  | root idx =>
    simp only [dbNodeGetNextChild, rootGetNextChild]
    split_ifs with hlt
    · exact ⟨trivial, ⟨_, List.getElem?_eq_getElem hlt, by simp⟩⟩
    · exact ⟨trivial, trivial⟩
  | fl flIdx subIdx isRoot => exact next_fl hfirst h
  | ps pid level => exact next_ps h
  | saul dev level => exact next_saul h
  | netif iface level => exact next_netif h

end Next

theorem type_of_sound {node : DbNode} (h : Sound db node) (g : Globals) :
    ∃ type, dbNodeGetType db g node = .ok type := by
  cases node with
  | null | root _ | ps _ _ | saul _ _ | netif _ _ => exact ⟨_, rfl⟩
  | fl flIdx subIdx isRoot =>
    obtain ⟨e, he, hs⟩ := h
    cases isRoot with
    | true => exact ⟨_, rfl⟩
    | false =>
      obtain ⟨s, hs⟩ := hs rfl
      refine ⟨s.type, ?_⟩
      simp [dbNodeGetType, flNodeGettype, flEntry_eq he, staticEntry_eq hs]

theorem ne_null_of_isNull {node : DbNode} {g : Globals}
    (h : dbNodeIsNull db g node = .ok false) : node ≠ .null := by
  rintro rfl
  simp [dbNodeIsNull, dbNodeGetType] at h

section Outcomes

variable {long : Prop}

/-- An access that leaves its array only if something is too long. -/
theorem inBounds_outcome {α : Type} (o : Option α) (hlong : o = none → long) :
    Outcome (Broken long) (fun a => o = some a) (inBounds o) := by
  cases o with
  | none => exact broken_bounds (hlong rfl)
  | some a => rfl

theorem strcpy_outcome {n : Nat} (b : Buf n) (s : CString) (hlong : n ≤ s.length → long) :
    Outcome (Broken long) (fun b' => b'.Shows s) (inBounds (b.strcpy s)) := by
  refine (inBounds_outcome _ fun hnone => hlong ?_).mono (fun _ => id) fun b' => Buf.strcpy_eq_some
  by_contra hlt
  obtain ⟨b', hb', -⟩ := b.strcpy_of_lt (Nat.not_le.mp hlt)
  cases hnone.symm.trans hb'

/-- The string in an array that is terminated. -/
theorem strlen_outcome {n : Nat} {b : Buf n} (h : nul ∈ b.chars ∨ long) :
    Outcome (Broken long) (fun k => b.strlen = some k) (inBounds b.strlen) := by
  refine inBounds_outcome _ fun hnone => h.resolve_left fun hnul => ?_
  rw [(Buf.shows_str hnul).strlen_eq] at hnone
  cases hnone

theorem readIp_outcome {n : Nat} (env : Env) {l : List NeighborEntryl} (num : UInt8) (b : Buf n)
    (hlong : ∀ e ∈ l, n ≤ (env.ipv6AddrToStr e.addr).length → long) :
    Outcome (Broken long) (fun r => nul ∈ b.chars → nul ∈ r.1.chars) (readIp env l num b) := by
  cases he : entryAt l num with
  | none =>
    rcases readIp_none env he with hr | hr <;> rw [hr]
    · exact id
    · exact broken_null
  | some e =>
    rw [readIp_eq env he]
    have hstrcpy := strcpy_outcome b (env.ipv6AddrToStr e.addr) (hlong e (List.mem_of_getElem? he))
    cases hb : inBounds (b.strcpy (env.ipv6AddrToStr e.addr)) with
    | error t => exact hstrcpy.of_eq_error hb
    | ok b' => exact fun _ => (hstrcpy.of_eq_ok hb).nul_mem

theorem saul_of_lt {env : Env} {i : Nat} (hi : i < env.saulReg.length) :
    ∃ r ∈ env.saulReg, env.saul (some i) = .ok r :=
  ⟨env.saulReg[i], List.getElem_mem hi, by simp [Env.saul, List.getElem?_eq_getElem hi]⟩

theorem iface_of_lt {env : Env} {i : Nat} (hi : i < env.ifaces.length) :
    ∃ n ∈ env.ifaces, env.iface (some i) = .ok n :=
  ⟨env.ifaces[i], List.getElem_mem hi, by simp [Env.iface, List.getElem?_eq_getElem hi]⟩

/-- The names of the tables are short. -/
theorem short_ofEnv {cfg : Config} {e : DbFlEntry} (he : e ∈ dbIndex cfg) :
    e.branchName.length < dbNodeNameMax ∧
      ∀ s ∈ e.staticEntries, s.name.length < dbNodeNameMax := by
  rcases mem_dbIndex he with rfl | rfl | rfl | rfl
  · decide
  · change (runtimeEntry {}).branchName.length < dbNodeNameMax ∧
      ∀ s ∈ (runtimeEntry {}).staticEntries, s.name.length < dbNodeNameMax
    decide
  · decide
  · decide

theorem nul_mem_strncpy {n : Nat} (b : Buf n) {s : CString} (h : s.length < n) :
    nul ∈ (b.strncpy s).chars :=
  (Buf.shows_strncpy b h).nul_mem

/-- Copying an array onto itself keeps its terminator. -/
theorem nul_mem_strncpy_str {n : Nat} {b : Buf n} (h : nul ∈ b.chars) :
    nul ∈ (b.strncpy b.str).chars :=
  nul_mem_strncpy b (Buf.shows_str h).length_lt

/-- The counters stand at the name of a field, a neighbour or a measurement. -/
def NameCounted (g : Globals) : DbNode → Prop
  | .ps _ .field => (psFieldName g.fieldCount).isSome
  | .saul _ .field => g.saulFieldCount = 0
  | .netif _ .field => (netifFieldName g.netifFieldCount).isSome
  | .netif _ .neighbour => (entryAt g.neighbours g.numNeighbours).isSome
  | .netif _ .qos => (netifSubFieldName g.netifSubFieldCount).isSome
  | _ => True

/-- How a call writes a name: it copies one, or it keeps what is in the array. -/
inductive WritesName (env : Env) (addrs : List Ipv6Addr) (counted : Prop)
    (get : NameBuf → Res NameBuf) : Prop where
  | cut (name : CString) (hfits : name.length < dbNodeNameMax ∨ LongThread env)
      (h : ∀ b, get b = .ok (b.strncpy name))
  | twice (name : CString) (hfits : name.length < dbNodeNameMax)
      (h : ∀ b, get b = .ok ((b.strncpy name).strncpy (b.strncpy name).str))
  | whole (name : CString) (hfits : dbNodeNameMax ≤ name.length → LongName env addrs)
      (h : ∀ b, get b = inBounds (b.strcpy name))
  | kept (hnot : ¬ counted) (h : (∀ b, get b = .ok b) ∨ (∀ b, get b = .ok (b.strncpy b.str)) ∨
      ∀ b, get b = .error .null)

/-- **How a sound node writes its name.** -/
theorem writesName_of_sound {cfg : Config} {env : Env} {node : DbNode}
    (h : Sound (.ofEnv cfg env) node) (hne : node ≠ .null) {g : Globals} {addrs : List Ipv6Addr}
    (hg : ∀ e ∈ g.neighbours, e.addr ∈ addrs) :
    WritesName env addrs (NameCounted g node) (dbNodeGetName (.ofEnv cfg env) g node) := by
  cases node with
  | null => exact absurd rfl hne
  | root idx => exact .cut _ (Or.inl (by decide)) fun b => rfl
  | fl flIdx subIdx isRoot =>
    obtain ⟨e, he, hs⟩ := h
    obtain ⟨hbranch, hentries⟩ := short_ofEnv (List.mem_of_getElem? he)
    cases isRoot with
    | true =>
      refine .cut _ (Or.inl hbranch) fun b => ?_
      simp only [dbNodeGetName, flNodeGetname, flEntry_eq he, ok_bind, if_true, pure_eq_ok]
    | false =>
      obtain ⟨s, hs⟩ := hs rfl
      refine .cut _ (Or.inl (hentries s (List.mem_of_getElem? hs))) fun b => ?_
      simp only [dbNodeGetName, flNodeGetname, flEntry_eq he, staticEntry_eq hs, ok_bind,
        Bool.false_eq_true, if_false, pure_eq_ok]
  | ps pid level =>
    cases level with
    | root => exact .cut _ (Or.inl (by decide)) fun b => rfl
    | process =>
      obtain ⟨-, hlast, hlive⟩ := h
      obtain ⟨p, hp⟩ := Option.isSome_iff_exists.mp hlive
      have hfits : p.name.length < dbNodeNameMax ∨ LongThread env :=
        (Nat.lt_or_ge _ _).imp_right fun hlong => ⟨pid, p, hp, hlong⟩
      refine .cut p.name hfits fun b => ?_
      simp only [dbNodeGetName, psNodeGetname, hlast, decide_true, assert_true, ok_bind,
        liveThread_eq hlast hp, pure_eq_ok]
    | field =>
      obtain ⟨-, hlast, -⟩ := h
      cases hfield : psFieldName g.fieldCount with
      | none =>
        refine .kept (by simp [NameCounted, hfield]) ?_
        by_cases hlt : g.fieldCount < psCount
        · refine Or.inr (Or.inl fun b => ?_)
          simp [dbNodeGetName, psNodeGetname, psNodeGetFieldName, hlast, hlt, hfield]
        · refine Or.inl fun b => ?_
          simp [dbNodeGetName, psNodeGetname, hlt]
      | some field =>
        have hlt := psFieldName_lt (Option.isSome_of_eq_some hfield)
        refine .twice (.lit field) (psFieldName_short hfield) fun b => ?_
        simp [dbNodeGetName, psNodeGetname, psNodeGetFieldName, hlast, hlt, hfield]
  | saul dev level =>
    cases level with
    | root => exact .cut _ (Or.inl (by decide)) fun b => rfl
    | device =>
      obtain ⟨i, hi, rfl⟩ := h
      obtain ⟨r, hr, hdev⟩ := saul_of_lt hi
      refine .whole r.name (fun hlong => Or.inl ⟨r, hr, hlong⟩) fun b => ?_
      simp [dbNodeGetName, saulNodeGetname, hdev]
    | field =>
      obtain ⟨i, hi, rfl⟩ := h
      by_cases hzero : g.saulFieldCount = 0
      · refine .twice (.lit "class") (by decide) fun b => ?_
        simp [dbNodeGetName, saulNodeGetname, saulNodeGetFieldName, hzero, saulCount]
      · refine .kept hzero ?_
        by_cases hlt : g.saulFieldCount < saulCount
        · refine Or.inr (Or.inl fun b => ?_)
          simp [dbNodeGetName, saulNodeGetname, saulNodeGetFieldName, hzero, hlt]
        · refine Or.inl fun b => ?_
          simp [dbNodeGetName, saulNodeGetname, hlt]
  | netif iface level =>
    cases level with
    | root => exact .cut _ (Or.inl (by decide)) fun b => rfl
    | iface =>
      obtain ⟨i, hi, rfl⟩ := h
      obtain ⟨n, hn, hiface⟩ := iface_of_lt hi
      refine .whole n.name (fun hlong => Or.inr (Or.inl ⟨n, hn, hlong⟩)) fun b => ?_
      simp [dbNodeGetName, netifNodeGetname, hiface]
    | field =>
      obtain ⟨i, hi, rfl⟩ := h
      cases hfield : netifFieldName g.netifFieldCount with
      | none =>
        refine .kept (by simp [NameCounted, hfield]) ?_
        by_cases hlt : g.netifFieldCount < netifCount
        · refine Or.inr (Or.inl fun b => ?_)
          simp [dbNodeGetName, netifNodeGetname, netifNodeGetFieldName, hlt, hfield]
        · refine Or.inl fun b => ?_
          simp [dbNodeGetName, netifNodeGetname, hlt]
      | some field =>
        have hlt := netifFieldName_lt (Option.isSome_of_eq_some hfield)
        refine .twice (.lit field) (netifFieldName_short hfield) fun b => ?_
        simp [dbNodeGetName, netifNodeGetname, netifNodeGetFieldName, hlt, hfield]
    | neighbour =>
      have hget : ∀ b, dbNodeGetName (.ofEnv cfg env) g (.netif iface .neighbour) b
          = (readIp env g.neighbours g.numNeighbours b).map Prod.fst := fun _ => rfl
      cases he : entryAt g.neighbours g.numNeighbours with
      | none =>
        refine .kept (by simp [NameCounted, he]) ?_
        rcases readIp_none env he with hr | hr
        · exact Or.inl fun b => by rw [hget, hr]; rfl
        · exact Or.inr (Or.inr fun b => by rw [hget, hr]; rfl)
      | some e =>
        have hmem := hg e (List.mem_of_getElem? he)
        refine .whole _ (fun hlong => Or.inr (Or.inr ⟨e.addr, hmem, hlong⟩)) fun b => ?_
        rw [hget, readIp_eq env he]
        cases inBounds (b.strcpy (env.ipv6AddrToStr e.addr)) <;> rfl
    | qos =>
      cases hfield : netifSubFieldName g.netifSubFieldCount with
      | none =>
        refine .kept (by simp [NameCounted, hfield]) ?_
        by_cases hle : g.netifSubFieldCount ≤ qosCount
        · refine Or.inr (Or.inl fun b => ?_)
          simp [dbNodeGetName, netifNodeGetname, netifNodeGetSubFieldName, hle, hfield]
        · refine Or.inl fun b => ?_
          simp [dbNodeGetName, netifNodeGetname, hle]
      | some field =>
        have hle := netifSubFieldName_le (Option.isSome_of_eq_some hfield)
        refine .twice (.lit field) (netifSubFieldName_short hfield) fun b => ?_
        simp [dbNodeGetName, netifNodeGetname, netifNodeGetSubFieldName, hle, hfield]

/--
**A sound node has a name**, which fits unless one is too long. The array is terminated if it was,
unless the name of a thread is too long.
-/
theorem name_of_sound {cfg : Config} {env : Env} {node : DbNode} (h : Sound (.ofEnv cfg env) node)
    (hne : node ≠ .null) {g : Globals} {addrs : List Ipv6Addr}
    (hg : ∀ e ∈ g.neighbours, e.addr ∈ addrs) (b : NameBuf) :
    Outcome (Broken (LongName env addrs)) (fun b' => nul ∈ b.chars → nul ∈ b'.chars ∨ LongThread env)
      (dbNodeGetName (.ofEnv cfg env) g node b) := by
  cases writesName_of_sound h hne hg with
  | cut name hfits hget =>
    rw [hget]
    exact fun _ => hfits.imp_left (nul_mem_strncpy b)
  | twice name hfits hget =>
    rw [hget]
    exact fun _ => Or.inl (nul_mem_strncpy_str (nul_mem_strncpy b hfits))
  | whole name hfits hget =>
    rw [hget]
    exact (strcpy_outcome b name hfits).mono (fun _ => id) fun _ hs _ => Or.inl hs.nul_mem
  | kept hnot hget =>
    rcases hget with hget | hget | hget <;> rw [hget]
    · exact Or.inl
    · exact fun hb => Or.inl (nul_mem_strncpy_str hb)
    · exact broken_null

end Outcomes

/-- What a lookup of a path goes beyond: the name buffer, with a name or with a component. -/
def LongLookup (env : Env) (g : Globals) (path : CString) : Prop :=
  LongName env g.addrs ∨ ∃ comp ∈ pathComponents path, dbNodeNameMax < comp.length

/-- Taking children does not touch the neighbour list. -/
theorem childStep_neighbours {c c' : Cursor} (h : ChildStep db c c') :
    c'.g.neighbours = c.g.neighbours := by
  cases h with
  | dynamic g child flIdx subIdx f => cases f <;> rfl
  | _ => rfl

section Enumerations

variable {cfg : Config} {env : Env} {g₀ : Globals}

/-- What lookups and enumerations keep: nodes that are there, and the neighbour list. -/
structure Steady (db : Db) (g₀ : Globals) (c : Cursor) : Prop where
  sound : SoundCursor db c
  neighbours : c.g.neighbours = g₀.neighbours

theorem Steady.next (hfirst : db.env.FirstThread) {E : Trap → Prop} {c : Cursor}
    (h : Steady db g₀ c) : Outcome E (Steady db g₀) (dbNodeGetNextChild db c) := by
  have hnext : Outcome E (SoundCursor db) (dbNodeGetNextChild db c) := h.sound.next hfirst
  cases hc : dbNodeGetNextChild db c with
  | error t => exact hnext.of_eq_error hc
  | ok c' =>
    exact ⟨hnext.of_eq_ok hc, (childStep_neighbours (childStep_of_ok hc)).trans h.neighbours⟩

theorem Steady.name {c : Cursor} (h : Steady (.ofEnv cfg env) g₀ c) (hne : c.child ≠ .null)
    (b : NameBuf) :
    Outcome (Broken (LongName env g₀.addrs))
      (fun b' => nul ∈ b.chars → nul ∈ b'.chars ∨ LongThread env)
      (dbNodeGetName (.ofEnv cfg env) c.g c.child b) := by
  refine name_of_sound h.sound.child hne ?_ b
  rw [h.neighbours]
  exact fun e he => List.mem_map_of_mem he

/-- **No call of a lookup fails an assertion.** -/
theorem lookupRule_sound (hfirst : env.FirstThread) (path : CString) :
    LookupRule (.ofEnv cfg env) (· ∈ pathComponents path) (NoAssert (LongLookup env g₀ path))
      (Steady (.ofEnv cfg env) g₀) where
  next := fun h => h.next hfirst
  isNull := by
    intro c h
    obtain ⟨type, htype⟩ := type_of_sound h.sound.child c.g
    rw [dbNodeIsNull_eq htype]
    trivial
  name := fun b h hnull => (noAssert_of_broken (h.name (ne_null_of_isNull hnull) b) Or.inl).mono
    (fun _ => id) fun _ _ => trivial
  descend := fun h hnull =>
    ⟨⟨h.sound.child.walkable (ne_null_of_isNull hnull), h.sound.child⟩, h.neighbours⟩
  bounds := fun comp hcomp hlong => ⟨by simp, by simp, fun _ => Or.inr ⟨comp, hcomp, hlong⟩⟩
  fuel := ⟨by simp, by simp, by simp⟩

end Enumerations

/-! ## Listing -/

/-- A folder that is found writes its first child. -/
theorem inner_not_keepsChild {g : Globals} (hg : g.InRange) {node : DbNode} (h : Sound db node)
    (htype : dbNodeGetType db g node = .ok .inner) : ¬ KeepsChild db.env g node := by
  cases node with
  | null | root _ | fl _ _ _ => exact id
  | ps pid level =>
    cases level with
    | root => exact id
    | process => exact not_not.mpr ⟨h.2.1, hg.fieldCount_lt⟩
    | field =>
      have hinner := (psNodeGettype_field g).symm.trans (Except.ok.inj htype)
      split_ifs at hinner
  | saul dev level =>
    cases level with
    | root => exact id
    | device =>
      obtain ⟨i, -, rfl⟩ := h
      rintro (hnull | hcount)
      · cases hnull
      · rw [hg.saulFieldCount] at hcount
        exact hcount (by decide)
    | field => cases htype
  | netif iface level =>
    cases level with
    | root | neighbour => exact id
    | iface =>
      obtain ⟨i, -, rfl⟩ := h
      exact not_not.mpr ⟨Option.some_ne_none i, hg.netifFieldCount⟩
    | field =>
      intro hmore
      have hinner := Except.ok.inj htype
      have hmore : g.netifFieldCount < netifCount - 1 := hmore
      rcases netifFieldCount_cases hg.netifFieldCount with hf | hf | hf | hf | hf
      · simp [netifNodeGettype, hf] at hinner
      · simp [netifNodeGettype, hf] at hinner
      · simp [netifNodeGettype, hf] at hinner
      · simp [netifNodeGettype, hf] at hinner
      · rw [hf] at hmore
        exact absurd hmore (by decide)
    | qos =>
      intro _
      have hinner := Except.ok.inj htype
      unfold netifNodeGettype at hinner
      split_ifs at hinner <;> simp_all

theorem childNames_outcome {cfg : Config} {env : Env} (hfirst : env.FirstThread) {g₀ : Globals}
    {long : Prop} (hlong : LongName env g₀.addrs ∨ LongThread env → long) (fuel : Nat)
    {name : NameBuf} (hname : nul ∈ name.chars ∨ long) {c : Cursor}
    (h : Steady (.ofEnv cfg env) g₀ c) :
    Outcome (NoAssert long) (fun _ => True) (childNames (.ofEnv cfg env) fuel name c) := by
  induction fuel generalizing name c with
  | zero => exact ⟨by simp, by simp, by simp⟩
  | succ fuel ih =>
    rw [childNames]
    obtain ⟨type, htype⟩ := type_of_sound h.sound.child c.g
    rw [dbNodeIsNull_eq htype, ok_bind]
    by_cases hnull : type = .null
    · rw [if_pos (by simpa using hnull)]
      trivial
    · rw [if_neg (by simpa using hnull)]
      have hne : c.child ≠ .null := by
        intro hchild
        rw [hchild] at htype
        exact hnull (Except.ok.inj htype).symm
      refine (noAssert_of_broken (h.name hne name) fun h => hlong (Or.inl h)).bind
        fun name' _ hkeeps => ?_
      have hname' : nul ∈ name'.chars ∨ long := by
        rcases hname with hname | hname
        · exact (hkeeps hname).imp_right fun h => hlong (Or.inr h)
        · exact Or.inr hname
      refine (noAssert_of_broken (strlen_outcome hname') id).bind fun _ _ _ => ?_
      refine (h.next hfirst).bind fun c' _ hc' => ?_
      exact (ih hname' hc').bind fun r _ _ => trivial

/-! ## Reading -/

theorem readSubField_outcome {long : Prop} (l : List NeighborEntryl) (sub num : UInt8) :
    Outcome (Broken long) (fun _ => True) (readSubField l sub num) := by
  unfold readSubField
  split_ifs
  · trivial
  · by_cases hle : num.toNat - 1 ≤ l.length
    · rw [stepLinks_of_le hle, ok_bind]
      cases l.drop (num.toNat - 1) <;> trivial
    · rw [stepLinks_of_lt (Nat.not_le.mp hle)]
      exact broken_null

theorem netifGetFloat_outcome {long : Prop} (env : Env) (g : Globals) {iface : Option Nat}
    (h : iface.isSome) : Outcome (Broken long) (fun _ => True) (netifNodeGetfloatValue env g iface) := by
  have hread : Outcome (Broken long) _ _ :=
    readSubField_outcome g.neighbours g.netifSubFieldCount g.numNeighbours
  have hlat : Outcome (Broken long) (fun _ => True) (netifGetLatency env g) :=
    hread.bind fun _ _ _ => trivial
  have hloss : Outcome (Broken long) (fun _ => True) (netifGetPacketloss env g) :=
    hread.bind fun _ _ _ => trivial
  unfold netifNodeGetfloatValue
  simp only [h, assert_true, ok_bind]
  split_ifs
  · exact hlat.bind fun _ _ _ => trivial
  · exact hloss.bind fun _ _ _ => trivial
  · exact hloss.bind fun _ _ _ => trivial
  · trivial

section Values

variable {cfg : Config} {env : Env} {g : Globals} {node : DbNode} {long : Prop} {n : Nat}

/-- The interface of a leaf. -/
theorem netif_of_sound {db : Db} {iface : Option Nat} {level : NetifLevel} {type : DbNodeType}
    (h : Sound db (.netif iface level)) (htype : dbNodeGetType db g (.netif iface level) = .ok type)
    (hleaf : type ≠ .inner) : ∃ i < db.env.ifaces.length, iface = some i := by
  cases level with
  | root =>
    obtain rfl := Except.ok.inj htype
    exact absurd rfl hleaf
  | iface | field | neighbour | qos => exact h

theorem intValue_outcome (h : Sound (.ofEnv cfg env) node)
    (htype : dbNodeGetType (.ofEnv cfg env) g node = .ok .int) :
    Outcome (Broken long) (fun _ => True) (dbNodeGetIntValue (.ofEnv cfg env) g node) := by
  simp only [dbNodeGetIntValue, htype, ok_bind, decide_true, assert_true]
  cases node with
  | null | root _ => cases htype
  | saul dev level => cases level <;> cases htype
  | fl flIdx subIdx isRoot =>
    rcases fl_type_cases htype with ⟨-, hint⟩ | ⟨rfl, e, s, he, hs, hint⟩
    · cases hint
    · have htyped := typed_ofEnv (List.mem_of_getElem? he) (List.mem_of_getElem? hs)
      obtain ⟨f, hf⟩ := htyped.int hint.symm
      simp only [flNodeGetintValue, flEntry_eq he, staticEntry_eq hs, hf, ok_bind]
      trivial
  | ps pid level =>
    obtain ⟨rfl, -⟩ := ps_type (by simp) htype
    obtain ⟨-, hlast, hlive⟩ := h
    obtain ⟨p, hp⟩ := Option.isSome_iff_exists.mp hlive
    simp only [psNodeGetintValue, hlast, decide_true, assert_true, ok_bind, liveThread_eq hlast hp]
    split_ifs <;> trivial
  | netif iface level =>
    obtain ⟨i, hi, rfl⟩ := netif_of_sound h htype (by simp)
    obtain ⟨n, -, hn⟩ := iface_of_lt hi
    show Outcome _ _ (netifNodeGetintValue (Db.ofEnv cfg env).env g (some i))
    simp only [netifNodeGetintValue, hn, ok_bind]
    split_ifs <;> trivial

theorem floatValue_outcome (h : Sound (.ofEnv cfg env) node)
    (htype : dbNodeGetType (.ofEnv cfg env) g node = .ok .float) :
    Outcome (Broken long) (fun _ => True) (dbNodeGetFloatValue (.ofEnv cfg env) g node) := by
  simp only [dbNodeGetFloatValue, htype, ok_bind, decide_true, assert_true]
  cases node with
  | null | root _ => cases htype
  | saul dev level => cases level <;> cases htype
  | fl flIdx subIdx isRoot =>
    rcases fl_type_cases htype with ⟨-, hfloat⟩ | ⟨rfl, e, s, he, hs, hfloat⟩
    · cases hfloat
    · have htyped := typed_ofEnv (List.mem_of_getElem? he) (List.mem_of_getElem? hs)
      obtain ⟨f, hf⟩ := htyped.float hfloat.symm
      simp only [flNodeGetfloatValue, flEntry_eq he, staticEntry_eq hs, hf, ok_bind]
      trivial
  | ps pid level =>
    obtain ⟨-, hfloat⟩ := ps_type (by simp) htype
    split_ifs at hfloat
  | netif iface level =>
    obtain ⟨i, -, rfl⟩ := netif_of_sound h htype (by simp)
    exact netifGetFloat_outcome env g rfl

/-- A text that fits is copied with its terminator. -/
theorem copyText_outcome {text : CString} (hfit : text.length + 1 < n ∨ long) (buf : Buf n) :
    Outcome (Broken long) (fun r => r.2 < n ∨ long) (copyText text buf (n - 1)) := by
  rcases hfit with hfit | hlong
  · have hroom : text.length < n - 1 := Nat.lt_sub_of_add_lt hfit
    obtain ⟨b, hb, -⟩ := copyText_of_lt buf hroom (Nat.sub_le n 1)
    rw [hb]
    exact Or.inl (Nat.lt_of_lt_of_le hroom (Nat.sub_le n 1))
  · exact (inBounds_outcome _ fun _ => hlong).bind fun _ _ _ =>
      (inBounds_outcome _ fun _ => hlong).bind fun _ _ _ => Or.inr hlong

theorem netifGetStr_outcome {i : Nat} (hi : i < env.ifaces.length) {buf : Buf n}
    (hfit : 88 < n ∨ long) (hbuf : nul ∈ buf.chars ∨ long) :
    Outcome (Broken long) (fun r => r.2 < n ∨ long) (netifNodeGetstrValue env g (some i) buf) := by
  obtain ⟨iface, -, hiface⟩ := iface_of_lt hi
  have hshort : ∀ {k : Nat}, k < 88 → k < n ∨ long := fun hk => hfit.imp_left (Nat.lt_trans hk)
  have haddr : ∀ a, (env.ipv6AddrToStr a).length < 88 := fun a =>
    Nat.lt_trans (env.ipv6AddrToStr_fits a) (by decide)
  have htext : ∀ {text : CString}, text.length < 88 → n ≤ text.length → long := fun hlt hle =>
    (hshort hlt).resolve_left (Nat.not_lt.mpr hle)
  unfold netifNodeGetstrValue
  simp only [Option.isSome_some, assert_true, ok_bind]
  split_ifs
  · unfold netifGetIpv6Addr
    rw [hiface, ok_bind]
    cases iface.ipv6Addr with
    | none =>
      refine (inBounds_outcome _ fun hnone => ?_).bind fun _ _ _ => hshort (k := 0) (by decide)
      refine (hshort (k := ipv6AddrMaxStrLen) (by decide)).resolve_left fun hlt => ?_
      have hroom : (List.replicate ipv6AddrMaxStrLen nul).length ≤ n := by
        rw [List.length_replicate]
        exact Nat.le_of_lt hlt
      obtain ⟨b', hb', -⟩ := buf.store_of_le hroom
      cases hnone.symm.trans hb'
    | some a => exact (strcpy_outcome buf _ (htext (haddr a))).bind fun _ _ _ => hshort (haddr a)
  · unfold netifGetLinkType
    rw [hiface, ok_bind]
    have hlink : (CString.lit (if iface.isWired = 1 then "wired" else "wireless")).length < 88 := by
      split_ifs <;> decide
    exact (strcpy_outcome buf _ (htext hlink)).bind fun _ _ _ => hshort hlink
  · have hread : Outcome (Broken long) _ _ :=
      readIp_outcome env (l := g.neighbours) g.numNeighbours buf fun e _ => htext (haddr e.addr)
    show Outcome _ _ ((readIp env g.neighbours g.numNeighbours buf).map Prod.fst >>= _)
    cases hr : readIp env g.neighbours g.numNeighbours buf with
    | error t => exact hread.of_eq_error hr
    | ok r =>
      have hnul : nul ∈ r.1.chars ∨ long := hbuf.imp_left (hread.of_eq_ok hr)
      refine (strlen_outcome hnul).bind fun k _ hk => ?_
      have hshows := Buf.shows_of_strlen hk
      have hlen : r.1.str.length = k := Option.some.inj (hshows.strlen_eq.symm.trans hk)
      exact Or.inl (hlen ▸ hshows.length_lt)
  · exact hfit

theorem strValue_outcome (hfit : env.TextsFit n ∨ long) (h : Sound (.ofEnv cfg env) node)
    (htype : dbNodeGetType (.ofEnv cfg env) g node = .ok .str) {buf : Buf n}
    (hbuf : nul ∈ buf.chars ∨ long) :
    Outcome (Broken long) (fun r => r.2 < n ∨ long)
      (dbNodeGetStrValue (.ofEnv cfg env) g node buf (n - 1)) := by
  simp only [dbNodeGetStrValue, htype, ok_bind, decide_true, assert_true]
  cases node with
  | null | root _ => cases htype
  | fl flIdx subIdx isRoot =>
    rcases fl_type_cases htype with ⟨-, hstr⟩ | ⟨rfl, e, s, he, hs, hstr⟩
    · cases hstr
    · obtain ⟨-, ⟨-, hf⟩ | ⟨-, hf⟩⟩ := text_ofEnv he hs hstr.symm
      · simp only [flNodeGetstrValue, flEntry_eq he, staticEntry_eq hs, hf, ok_bind]
        exact copyText_outcome (hfit.imp_left fun h => h.2.1) buf
      · simp only [flNodeGetstrValue, flEntry_eq he, staticEntry_eq hs, hf, ok_bind]
        exact copyText_outcome (hfit.imp_left fun h => h.2.2.1) buf
  | ps pid level =>
    obtain ⟨rfl, -⟩ := ps_type (by simp) htype
    obtain ⟨-, hlast, hlive⟩ := h
    obtain ⟨p, hp⟩ := Option.isSome_iff_exists.mp hlive
    simp only [psNodeGetstrValue, hlast, decide_true, assert_true, ok_bind, liveThread_eq hlast hp]
    split_ifs
    · refine (inBounds_outcome _ fun hnone => ?_).bind fun _ _ _ => hfit.imp_left And.left
      refine hfit.resolve_left fun hfit => ?_
      have hle : dbNodeNameMax ≤ n := Nat.le_of_lt (Nat.lt_trans (by decide) hfit.1)
      obtain ⟨b', hb', -⟩ := Buf.strncpyN_of_le (s := .lit (stateNames p.status)) buf hle
      cases hnone.symm.trans hb'
    · exact hfit.imp_left And.left
  | saul dev level =>
    cases level with
    | root => cases htype
    | device | field =>
      obtain ⟨i, hi, rfl⟩ := h
      obtain ⟨r, hr, hdev⟩ := saul_of_lt hi
      have htext : (env.saulClassToStr r.type).length < n ∨ long :=
        hfit.imp_left fun h => h.2.2.2 r hr
      simp only [saulNodeGetstrValue, Option.isSome_some, assert_true, ok_bind]
      split_ifs
      · rw [show (Db.ofEnv cfg env).env.saul (some i) = .ok r from hdev, ok_bind]
        exact (strcpy_outcome buf _ fun hle => htext.resolve_left (Nat.not_lt.mpr hle)).bind
          fun _ _ _ => htext
      · exact hfit.imp_left And.left
  | netif iface level =>
    obtain ⟨i, hi, rfl⟩ := netif_of_sound h htype (by simp)
    exact netifGetStr_outcome hi (hfit.imp_left And.left) hbuf

theorem nul_mem_set {b b' : Buf n} {k : Nat} (h : b.set k nul = some b') : nul ∈ b'.chars := by
  unfold Buf.set at h
  split_ifs at h with hlt
  obtain rfl := Option.some.inj h
  exact List.mem_set (by rw [b.size]; exact hlt) nul

/-- **The value of a sound node is read without a failed assertion**, into an array that ends up
terminated. -/
theorem valueToStr_outcome (hn : 4 ≤ n) (hfit : env.TextsFit n ∨ long)
    (h : Sound (.ofEnv cfg env) node) {buf : Buf n} (hbuf : nul ∈ buf.chars ∨ long) :
    Outcome (Broken long) (fun r => nul ∈ r.2.1.chars ∨ long)
      (dbNodeValueToStr (.ofEnv cfg env) g node buf) := by
  obtain ⟨type, htype⟩ := type_of_sound h g
  cases type with
  | null | inner =>
    simp only [dbNodeValueToStr, hn, decide_true, assert_true, ok_bind, htype]
    exact hbuf
  | int =>
    have hread : Outcome (Broken long) _ _ := intValue_outcome h htype
    cases hv : dbNodeGetIntValue (.ofEnv cfg env) g node with
    | error t =>
      rw [valueToStr_int hn htype, hv]
      exact hread.of_eq_error hv
    | ok r =>
      obtain ⟨b, hval, hs⟩ := valueToStr_of_int hn htype hv buf
      rw [hval]
      exact Or.inl hs.nul_mem
  | float =>
    have hread : Outcome (Broken long) _ _ := floatValue_outcome h htype
    cases hv : dbNodeGetFloatValue (.ofEnv cfg env) g node with
    | error t =>
      simp only [dbNodeValueToStr, hn, decide_true, assert_true, ok_bind, htype, hv, error_bind]
      exact hread.of_eq_error hv
    | ok v =>
      obtain ⟨b, hval, hs⟩ := valueToStr_of_float hn htype hv buf
      rw [hval]
      exact Or.inl hs.nul_mem
  | str =>
    rw [valueToStr_str hn htype]
    refine (strValue_outcome hfit h htype hbuf).bind fun r _ hsize => ?_
    have hset : r.1.set r.2 nul = none → long := fun hnone =>
      hsize.resolve_left fun hlt => by
        rw [Buf.set, if_pos hlt] at hnone
        cases hnone
    have hterm : Outcome (Broken long) (fun b => nul ∈ b.1.chars) (terminate r.1 r.2) :=
      (inBounds_outcome _ hset).bind fun b _ hb => nul_mem_set hb
    exact hterm.bind fun b _ hb => Or.inl hb

end Values

/-- What a query goes beyond: a lookup, an array of a text, or one that is read with nothing in it. -/
def LongQuery (env : Env) (g : Globals) {n : Nat} (stack : Stack) (buf : Buf n) (path : CString) :
    Prop :=
  LongLookup env g path ∨ LongThread env ∨ ¬ env.TextsFit n ∨ nul ∉ stack.name.chars ∨
    nul ∉ buf.chars

/--
**No query fails an assertion or calls an operation that is missing**, whatever the path, in every
reachable state of the shared variables. It leaves an array only where a name, a component of the
path or a text does not fit, or where an array of the caller holds no terminator.
-/
theorem query_no_assert (cfg : Config) (env : Env) (hfirst : env.FirstThread) (g : Globals)
    (hg : Reachable (dbIndex cfg) g) (n : Nat) (hn : 4 ≤ n) (stack : Stack) (buf : Buf n)
    (fuel : Nat) (path : CString) :
    ∀ t, query (.ofEnv cfg env) stack buf fuel g path = .error t →
      t ≠ .assert ∧ t ≠ .badCall ∧ (t = .bounds → LongQuery env g stack buf path) := by
  have hrule : LookupRule (.ofEnv cfg env) (· ∈ pathComponents path)
      (NoAssert (LongLookup env g path)) (Steady (.ofEnv cfg env) g) :=
    lookupRule_sound hfirst path
  have hroot : Steady (.ofEnv cfg env) g ⟨g, .root 0, .root 0⟩ := ⟨⟨trivial, trivial⟩, rfl⟩
  have hfits : env.TextsFit n ∨ LongQuery env g stack buf path :=
    (em _).imp_right fun h => Or.inr (Or.inr (Or.inl h))
  have hname : nul ∈ stack.name.chars ∨ LongQuery env g stack buf path :=
    (em _).imp_right fun h => Or.inr (Or.inr (Or.inr (Or.inl h)))
  have hbuf : nul ∈ buf.chars ∨ LongQuery env g stack buf path :=
    (em _).imp_right fun h => Or.inr (Or.inr (Or.inr (Or.inr h)))
  have hquery : Outcome (NoAssert (LongQuery env g stack buf path)) (fun _ => True)
      (query (.ofEnv cfg env) stack buf fuel g path) := by
    have hlookup : Outcome (NoAssert (LongQuery env g stack buf path)) _ _ :=
      (hrule.find fuel hroot (fun _ => id) stack.node stack.name).mono
        (fun _ ht => ht.imp_right fun h => h.imp_right fun hb => Or.inl ∘ hb) fun _ => id
    refine hlookup.bind fun found hfound hnode => ?_
    by_cases hcode : found.code < 0
    · rw [if_pos hcode]
      trivial
    · rw [if_neg hcode]
      have hzero : found.code = 0 := by
        rcases code_of_find hfound with hc | hc
        · exact hc
        · rw [hc] at hcode
          exact absurd (by decide : enoent < 0) hcode
      obtain ⟨⟨hwalk, hsound⟩, hsame⟩ := hnode hzero
      have hrange : found.g.InRange :=
        ((keeps_inRange (dbIndex cfg)).calls env).find hfound hg.inRange
      obtain ⟨type, htype⟩ := type_of_sound hsound found.g
      rw [htype, ok_bind]
      have hval := noAssert_of_broken (valueToStr_outcome (g := found.g) hn hfits hsound hbuf) id
      cases type with
      | null => trivial
      | int | float | str => exact hval.bind fun _ _ _ => trivial
      | inner =>
        -- the first call writes the child variable, so it may as well have held the node
        have hkeeps := inner_not_keepsChild hrange hsound htype
        dsimp only
        rw [next_of_not_keepsChild hkeeps stack.node found.node]
        have hcursor : Steady (.ofEnv cfg env) g ⟨found.g, found.node, found.node⟩ :=
          ⟨⟨hwalk, hsound⟩, hsame⟩
        refine (hcursor.next hfirst).bind fun c _ hc => ?_
        have hlong : LongName env g.addrs ∨ LongThread env → LongQuery env g stack buf path :=
          Or.imp Or.inl Or.inl
        exact (childNames_outcome hfirst hlong fuel hname hc).bind fun _ _ _ => trivial
  intro t ht
  exact hquery.of_eq_error ht

/-- `/runtime/ps/idle` on the small board. -/
theorem query_no_assert_idle :
    smallEnv.FirstThread ∧ ∀ t, query smallDb ⟨.null, Buf.zero _, Buf.zero _⟩ (Buf.zero 128) 8 {}
      (.lit "/runtime/ps/idle") = .error t → t ≠ .assert ∧ t ≠ .badCall ∧
        (t = .bounds → LongQuery smallEnv {} ⟨.null, Buf.zero _, Buf.zero _⟩ (Buf.zero 128)
          (.lit "/runtime/ps/idle")) :=
  ⟨by unfold Env.FirstThread Env.Live; decide,
    query_no_assert {} smallEnv (by unfold Env.FirstThread Env.Live; decide) {}
      ⟨smallEnv, .boot smallEnv, .refl _, rfl⟩ 128 (by decide) ⟨.null, Buf.zero _, Buf.zero _⟩
      (Buf.zero 128) 8 (.lit "/runtime/ps/idle")⟩

end Dca
