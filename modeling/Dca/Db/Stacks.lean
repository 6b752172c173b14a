import Dca.Db.Position
import Dca.Db.Ways

/-!
# What a dump prints whatever the stack holds

`_tree_r` hands arrays to the operations in which it has put nothing, and some operations leave them
alone: where a counter stands behind the names of its level, or where there is no entry for the number
of a neighbour. A dump only comes to nodes at which the counters stand (`Visit.Counted`), as long as
no cache names a neighbour twice. There the operations write all of what is printed, so two dumps from
one state print the same (`dump_stacks`).
-/

namespace Dca

open CLib

/-! ## Along a tour -/

section Tours

variable {db : Db} {junk : DbNode} {P : Globals → Prop}

/-- A property that taking children and counting neighbours keep holds at every visit. -/
theorem Kept.tours (hkept : Kept db P) {c c' : Cursor} {forest : Forest Visit}
    (h : Tours db junk c c' forest) (hc : P c.g) : P c'.g ∧ forest.All fun v => P v.g := by
  have hvalue : ∀ {g : Globals} (node : DbNode), P g → P (afterValue db.env g node) := by
    intro g node hg
    rcases afterValue_cases db.env g node with hsame | ⟨id, hcount⟩
    · rwa [hsame]
    · rw [hcount]
      exact hkept.count _ hg
  induction h with
  | nil => exact ⟨hc, trivial⟩
  | leaf htype hleaf hnext hrest ih =>
    obtain ⟨hend, hforest⟩ := ih (hkept.child (childStep_of_ok hnext) (hvalue _ hc))
    exact ⟨hend, hc, trivial, hforest⟩
  | folder htype hfirst hbelow hnext hrest ihBelow ihRest =>
    obtain ⟨hmid, hchildren⟩ := ihBelow (hkept.child (childStep_of_ok hfirst) hc)
    obtain ⟨hend, hforest⟩ := ihRest (hkept.child (childStep_of_ok hnext) hmid)
    exact ⟨hend, hc, hchildren, hforest⟩

theorem Kept.tourTo (hkept : Kept db P) {g g' : Globals} {node : DbNode} {below : Forest Visit}
    (h : TourTo db junk g node g' below) (hg : P g) :
    (Forest.node ⟨g, node⟩ below .nil).All fun v => P v.g := by
  rcases h with ⟨-, -, rfl⟩ | ⟨-, c, c', hfirst, -, htours⟩
  · exact ⟨hg, trivial, trivial⟩
  · exact ⟨hg, (hkept.tours htours (hkept.child (childStep_of_ok hfirst) hg)).2, trivial⟩

end Tours

/-! ## Where the counters stand -/

/-- Among the neighbours of an interface the counters stand at what the node names. -/
def Visit.Counted (v : Visit) : Prop :=
  match v.node with
  | .netif _ .neighbour =>
    v.g.netifFieldCount = 4 ∧ (entryAt v.g.neighbours v.g.numNeighbours).isSome
  | .netif _ .qos =>
    v.g.netifFieldCount = 4 ∧
      (v.g.netifSubFieldCount = 2 ∨ v.g.netifSubFieldCount = 3 ∨ v.g.netifSubFieldCount = 4)
  | _ => True

theorem psFieldForest_counted (pid n : Nat) (g : Globals) :
    (psFieldForest pid n g).All Visit.Counted := by
  induction n generalizing g with
  | zero => exact ⟨trivial, trivial, trivial⟩
  | succ n ih => exact ⟨trivial, trivial, ih _⟩

theorem psForest_counted (pids : List Nat) (g : Globals) :
    (psForest pids g).All Visit.Counted := by
  induction pids generalizing g with
  | nil => trivial
  | cons pid pids ih => exact ⟨trivial, psFieldForest_counted pid _ g, ih _⟩

theorem saulForest_counted (n i : Nat) (g : Globals) : (saulForest n i g).All Visit.Counted := by
  induction n generalizing i with
  | zero => trivial
  | succ n ih => exact ⟨trivial, ⟨trivial, trivial, trivial⟩, ih (i + 1)⟩

theorem neighbourForest_counted (i n : Nat) {g : Globals} (hlast : g.netifFieldCount = 4)
    (hn : g.numNeighbours.toNat = n) (hlist : InList g) :
    (neighbourForest i n g).All Visit.Counted := by
  induction n generalizing g with
  | zero => trivial
  | succ n ih =>
    have hlen : n < g.neighbours.length := hn.symm.trans_le hlist
    have hentry : (entryAt g.neighbours g.numNeighbours).isSome := by
      simp only [entryAt, hn, Nat.add_sub_cancel, isSome_getElem?, hlen]
    have hqos : ∀ sub : UInt8, sub = 2 ∨ sub = 3 ∨ sub = 4 →
        Visit.Counted ⟨{ g with netifSubFieldCount := sub }, .netif (some i) .qos⟩ :=
      fun _ hsub => ⟨hlast, hsub⟩
    obtain ⟨-, hless⟩ := numNeighbours_pred hn
    refine ⟨⟨hlast, hentry⟩, ⟨hqos 2 (by simp), trivial, hqos 3 (by simp), trivial,
      hqos 4 (by simp), trivial, trivial⟩, ih hlast hless ?_⟩
    exact hless.trans_le (Nat.le_of_lt hlen)

section Ifaces

variable {env : Env}

/-- Reading `num_neighbours` puts the number in the list. -/
theorem inList_afterValue (hdistinct : env.CachesDistinct) {i : Nat} (hi : i < env.ifaces.length)
    {g : Globals} (hthree : g.netifFieldCount = 3) (level : NetifLevel) :
    InList (afterValue env g (.netif (some i) level)) := by
  have hvalue : afterValue env g (.netif (some i) level)
      = (env.nibNc env.ifaces[i].id).foldl countNeighbour { g with numNeighbours := 0 } := by
    simp [afterValue, hthree, List.getElem?_eq_getElem hi]
  rw [hvalue]
  exact inList_count (hdistinct _) g

/-- The field that is `n` fields in front of the last one. -/
theorem ifaceForest_counted (hdistinct : env.CachesDistinct) {i : Nat}
    (hi : i < env.ifaces.length) (n : Nat) {g : Globals} (hn : g.netifFieldCount.toNat + n = 4)
    (hlist : n = 0 → InList g) : (ifaceForest env i n g).All Visit.Counted := by
  induction n generalizing g with
  | zero =>
    have hlast : g.netifFieldCount = 4 := UInt8.toNat_inj.mp hn
    exact ⟨trivial, neighbourForest_counted i _ hlast rfl (hlist rfl), trivial⟩
  | succ n ih =>
    refine ⟨trivial, trivial, ih ?_ fun hzero => ?_⟩
    · show (g.netifFieldCount + 1).toNat + n = 4
      rw [uint8_add_one (by omega)]
      omega
    · -- the field in front of the last one is `num_neighbours`
      have hthree : g.netifFieldCount = 3 := UInt8.toNat_inj.mp (by
        show g.netifFieldCount.toNat = 3
        omega)
      exact inList_afterValue hdistinct hi hthree .field

/-- Behind the fields of an interface the number of neighbours is 0. -/
theorem netifForest_counted (hdistinct : env.CachesDistinct) (n : Nat) {i : Nat}
    (hi : i + n = env.ifaces.length) {g : Globals} (hlt : g.netifFieldCount < netifCount)
    (hlist : g.netifFieldCount = 4 → InList g) :
    (netifForest env n i g).All Visit.Counted := by
  induction n generalizing i g with
  | zero => trivial
  | succ n ih =>
    have hleft := ifaceFieldsLeft_eq hlt
    obtain ⟨hfour, -, hnone, -, -⟩ := afterFields_frame env i _ hleft
    refine ⟨trivial, ifaceForest_counted hdistinct (by omega) _ hleft fun hzero => hlist ?_,
      ih (by omega) (hfour ▸ by decide) fun _ => ?_⟩
    · rw [hzero] at hleft
      exact UInt8.toNat_inj.mp hleft
    · rw [InList, hnone]
      exact Nat.zero_le _

theorem rowsDump_counted {dump : Globals → DbNode → Globals × Forest Visit} {rows : List TableRow}
    (hrows : ∀ row ∈ rows, ∀ g, Visit.Counted ⟨g, row.node⟩ ∧
      (dump (row.node.constructed g) row.node).2.All Visit.Counted) (g : Globals) :
    (rowsDump dump rows g).2.All Visit.Counted := by
  induction rows generalizing g with
  | nil => trivial
  | cons row rows ih =>
    obtain ⟨hrow, hrows⟩ := List.forall_mem_cons.mp hrows
    exact ⟨(hrow _).1, (hrow g).2, ih hrows _⟩

/-- **At every visit of a dump the counters stand at what the node names.** -/
theorem rootDump_counted (cfg : Config) (hdistinct : env.CachesDistinct) (g : Globals) :
    (Forest.node ⟨g, dbGetRoot⟩ (rootDump (.ofEnv cfg env) g).2 .nil).All Visit.Counted := by
  refine ⟨trivial, rowsDump_counted (fun row hrow g => ?_) g, trivial⟩
  obtain ⟨flIdx, e, he, rfl⟩ := branch_of_row hrow
  refine ⟨trivial, rowsDump_counted (fun row hrow g => ?_) _⟩
  rw [tableRows_branch he] at hrow
  rcases entry_of_row he hrow with ⟨subIdx, s, hs, rfl⟩ | ⟨d, -, rfl⟩
  · exact ⟨trivial, trivial⟩
  · cases d.getNodeFn with
    | dbNewPsNode => exact ⟨trivial, psForest_counted _ _⟩
    | dbNewSaulNode => exact ⟨trivial, saulForest_counted _ _ _⟩
    | dbNewNetifNode =>
      exact ⟨trivial, netifForest_counted hdistinct _ (Nat.zero_add _)
        (by decide : (0 : UInt8) < netifCount)
        fun hfour => absurd hfour (by decide : (0 : UInt8) ≠ 4)⟩

end Ifaces

/-! ## What is printed -/

section Printed

variable {cfg : Config} {env : Env} {g : Globals} {node : DbNode}

/-- The node writes one name, whatever the array holds. -/
def OneName (db : Db) (g : Globals) (node : DbNode) : Prop :=
  ∃ name, ∀ b r, dbNodeGetName db g node b = .ok r → r.str = name

/-- The node writes one text, whatever the array holds, and returns at least its length. -/
def OneText (db : Db) (g : Globals) (node : DbNode) (n : Nat) : Prop :=
  ∃ text, ∀ (b : Buf n) r, dbNodeGetStrValue db g node b (n - 1) = .ok r →
    r.1.Shows text ∧ text.length ≤ r.2

/-- At a visit the counters stand at a name. -/
theorem nameCounted_of_visit (hg : g.InRange) (hcounted : Visit.Counted ⟨g, node⟩) :
    NameCounted g node := by
  cases node with
  | null | root _ | fl _ _ _ => trivial
  | ps pid level =>
    cases level with
    | root | process => trivial
    | field =>
      show (psFieldName g.fieldCount).isSome
      rcases hg.fieldCount_cases with hf | hf | hf | hf | hf <;> rw [hf] <;> rfl
  | saul dev level =>
    cases level with
    | root | device => trivial
    | field => exact hg.saulFieldCount
  | netif iface level =>
    cases level with
    | root | iface => trivial
    | field =>
      show (netifFieldName g.netifFieldCount).isSome
      rcases netifFieldCount_cases hg.netifFieldCount with hf | hf | hf | hf | hf <;>
        rw [hf] <;> rfl
    | neighbour => exact hcounted.2
    | qos =>
      show (netifSubFieldName g.netifSubFieldCount).isSome
      have hsub : g.netifSubFieldCount = 2 ∨ g.netifSubFieldCount = 3 ∨ g.netifSubFieldCount = 4 :=
        hcounted.2
      rcases hsub with hf | hf | hf <;> rw [hf] <;> rfl

/-- **The name of a visit** does not depend on what the array holds. -/
theorem oneName_of_visit {addrs : List Ipv6Addr} {v : Visit} (h : v.Sound (.ofEnv cfg env) addrs)
    (hg : v.g.InRange) (hcounted : v.Counted) : OneName (.ofEnv cfg env) v.g v.node := by
  let zero := Buf.zero dbNodeNameMax
  cases writesName_of_sound h.node h.ne_null h.known with
  | cut name _ hget =>
    refine ⟨(zero.strncpy name).str, fun b r hr => ?_⟩
    obtain rfl := Except.ok.inj ((hget b).symm.trans hr)
    rfl
  | twice name _ hget =>
    refine ⟨((zero.strncpy name).strncpy (zero.strncpy name).str).str, fun b r hr => ?_⟩
    obtain rfl := Except.ok.inj ((hget b).symm.trans hr)
    rfl
  | whole name _ hget =>
    refine ⟨name, fun b r hr => ?_⟩
    rw [hget] at hr
    exact (Buf.strcpy_eq_some (inBounds_eq_ok.mp hr)).str_eq
  | kept hnot => exact absurd (nameCounted_of_visit hg hcounted) hnot

theorem oneText_strcpy {db : Db} {n : Nat} (text : CString)
    (h : ∀ b : Buf n, dbNodeGetStrValue db g node b (n - 1)
      = (·, text.length) <$> inBounds (b.strcpy text)) : OneText db g node n := by
  refine ⟨text, fun b r hr => ?_⟩
  rw [h] at hr
  obtain ⟨b', hb', hr⟩ := bind_eq_ok.mp hr
  obtain rfl := Except.ok.inj hr
  exact ⟨Buf.strcpy_eq_some (inBounds_eq_ok.mp hb'), Nat.le_refl _⟩

/-- What `board.c` copies into all of the array but the last byte. -/
theorem shows_of_copyText {n : Nat} (hn : 0 < n) {text : CString} {buf : Buf n} {r : Buf n × Nat}
    (h : copyText text buf (n - 1) = .ok r) :
    r.1.Shows (text.cut (n - 1)) ∧ (text.cut (n - 1)).length ≤ r.2 := by
  by_cases hshort : text.length < n - 1
  · obtain ⟨b, hb, hs⟩ := copyText_of_lt buf hshort (Nat.sub_le n 1)
    obtain rfl := Except.ok.inj (hb.symm.trans h)
    rw [CString.cut_of_le (Nat.le_of_lt hshort)]
    exact ⟨hs, Nat.le_refl _⟩
  · obtain ⟨b, hb, h⟩ := bind_eq_ok.mp h
    obtain ⟨k, hk, h⟩ := bind_eq_ok.mp h
    obtain rfl := Except.ok.inj h
    obtain ⟨b', hb', hchars⟩ := Buf.strncpyN_of_le (s := text) buf (Nat.sub_le n 1)
    obtain rfl := Option.some.inj (hb'.symm.trans (inBounds_eq_ok.mp hb))
    obtain ⟨c, hdrop, -⟩ := drop_last buf hn
    have hpad : n - 1 - text.length = 0 := by omega
    have hbytes : b'.chars = (text.cut (n - 1)).chars ++ [c] := by
      rw [hchars, hdrop, Buf.strncpyBytes, hpad, List.replicate_zero, List.append_nil]
      rfl
    -- the terminator can only be the last byte
    have hnul := (Buf.shows_of_strlen (inBounds_eq_ok.mp hk)).nul_mem
    rw [hbytes, List.mem_append, List.mem_singleton] at hnul
    obtain rfl := hnul.resolve_left (text.cut (n - 1)).noNul
    have hs : b'.Shows (text.cut (n - 1)) := by
      refine ⟨[], ?_⟩
      rw [List.append_nil]
      exact hbytes.symm
    have hlen := hs.strlen_eq.symm.trans (inBounds_eq_ok.mp hk)
    exact ⟨hs, Nat.le_of_eq (Option.some.inj hlen)⟩

theorem oneText_netifField {iface : Option Nat} (h : Sound (.ofEnv cfg env) (.netif iface .field))
    (hg : g.InRange)
    (htype : dbNodeGetType (.ofEnv cfg env) g (.netif iface .field) = .ok .str) {n : Nat} :
    OneText (.ofEnv cfg env) g (.netif iface .field) n := by
  obtain ⟨i, hi, rfl⟩ := h
  obtain ⟨iface, -, hiface⟩ : ∃ n ∈ env.ifaces, env.iface (some i) = .ok n := iface_of_lt hi
  have htypes := Except.ok.inj htype
  have hget : ∀ b : Buf n, dbNodeGetStrValue (.ofEnv cfg env) g (.netif (some i) .field) b (n - 1)
      = netifNodeGetstrValue env g (some i) b := fun b => strValue_netif htype b (n - 1)
  rcases netifFieldCount_cases hg.netifFieldCount with hf | hf | hf | hf | hf
  · simp [netifNodeGettype, hf] at htypes
  · have haddr : ∀ b : Buf n, netifNodeGetstrValue env g (some i) b
        = netifGetIpv6Addr env (some i) b := fun b => by simp [netifNodeGetstrValue, hf]
    cases ha : iface.ipv6Addr with
    | some a =>
      refine oneText_strcpy (env.ipv6AddrToStr a) fun b => ?_
      rw [hget, haddr, netifGetIpv6Addr, hiface, ok_bind, ha]
      dsimp only
      cases inBounds (b.strcpy (env.ipv6AddrToStr a)) <;> rfl
    | none =>
      refine ⟨.lit "", fun b r hr => ?_⟩
      rw [hget, haddr, netifGetIpv6Addr, hiface, ok_bind, ha] at hr
      obtain ⟨b', hb', hr⟩ := bind_eq_ok.mp hr
      obtain rfl := Except.ok.inj hr
      have hchars := (Buf.store_eq_some (inBounds_eq_ok.mp hb')).2
      exact ⟨⟨_, hchars.symm⟩, Nat.le_refl _⟩
  · refine oneText_strcpy iface.linkText fun b => ?_
    have htwo : ¬ g.netifFieldCount = 1 := by simp [hf]
    rw [hget]
    simp only [netifNodeGetstrValue, Option.isSome_some, assert_true, ok_bind, if_neg htwo,
      if_pos hf, netifGetLinkType, hiface]
    change (do return (← inBounds (b.strcpy iface.linkText), iface.linkText.length)) = _
    cases inBounds (b.strcpy iface.linkText) <;> rfl
  · simp [netifNodeGettype, hf] at htypes
  · simp [netifNodeGettype, hf] at htypes

/-- **The text of a visit** does not depend on what the array holds. -/
theorem oneText_of_visit (h : Sound (.ofEnv cfg env) node) (hg : g.InRange)
    (hcounted : Visit.Counted ⟨g, node⟩)
    (htype : dbNodeGetType (.ofEnv cfg env) g node = .ok .str) {n : Nat} (hn : 0 < n) :
    OneText (.ofEnv cfg env) g node n := by
  cases node with
  | null | root _ => cases htype
  | fl flIdx subIdx isRoot =>
    rcases fl_type_cases htype with ⟨-, hstr⟩ | ⟨rfl, e, s, he, hs, hstr⟩
    · cases hstr
    · have hcopy : ∃ text, ∀ b : Buf n, dbNodeGetStrValue (.ofEnv cfg env) g (.fl flIdx subIdx false)
          b (n - 1) = copyText text b (n - 1) := by
        obtain ⟨-, ⟨-, hf⟩ | ⟨-, hf⟩⟩ := text_ofEnv he hs hstr.symm <;>
          exact ⟨_, fun b => by
            simp only [dbNodeGetStrValue, htype, flNodeGetstrValue, flEntry_eq he, staticEntry_eq hs,
              hf, ok_bind, decide_true, assert_true]
            rfl⟩
      obtain ⟨text, htext⟩ := hcopy
      exact ⟨text.cut (n - 1), fun b r hr => shows_of_copyText hn ((htext b).symm.trans hr)⟩
  | ps pid level =>
    obtain ⟨rfl, hstr⟩ := ps_type (by simp) htype
    have hfc : g.fieldCount = 1 := by
      by_contra hne
      rw [if_neg hne] at hstr
      cases hstr
    obtain ⟨-, hlast, hlive⟩ := h
    obtain ⟨p, hp⟩ := Option.isSome_iff_exists.mp hlive
    refine ⟨.lit (stateNames p.status), fun b r hr => ?_⟩
    rw [strValue_ps htype] at hr
    simp only [psNodeGetstrValue, show pid ≤ (Db.ofEnv cfg env).env.kernelPidLast from hlast,
      decide_true, assert_true, ok_bind, liveThread_eq hlast hp, if_pos hfc] at hr
    obtain ⟨b', hb', hr⟩ := bind_eq_ok.mp hr
    obtain rfl := Except.ok.inj hr
    have hshort := stateName_short p.status
    have hchars := (Buf.store_eq_some (inBounds_eq_ok.mp hb')).2
    exact ⟨Buf.shows_of_strncpyBytes hshort hchars,
      Nat.le_of_lt (Nat.lt_trans hshort (by decide : dbNodeNameMax < 88))⟩
  | saul dev level =>
    cases level with
    | root | device => cases htype
    | field =>
      obtain ⟨i, hi, rfl⟩ := h
      obtain ⟨r, -, hdev⟩ := saul_of_lt hi
      refine oneText_strcpy (env.saulClassToStr r.type) fun b => ?_
      rw [strValue_saul htype]
      simp only [saulNodeGetstrValue, Option.isSome_some, assert_true, ok_bind,
        if_pos hg.saulFieldCount]
      rw [show (Db.ofEnv cfg env).env.saul (some i) = .ok r from hdev, ok_bind]
      change (do return (← inBounds (b.strcpy (env.saulClassToStr r.type)), _)) = _
      cases inBounds (b.strcpy (env.saulClassToStr r.type)) <;> rfl
  | netif iface level =>
    have htypes := Except.ok.inj htype
    cases level with
    | root | iface => cases htypes
    | neighbour =>
      have hlast : g.netifFieldCount = 4 := hcounted.1
      simp [netifNodeGettype, hlast] at htypes
    | qos =>
      have hlast : g.netifFieldCount = 4 := hcounted.1
      have hsub : g.netifSubFieldCount = 2 ∨ g.netifSubFieldCount = 3 ∨ g.netifSubFieldCount = 4 :=
        hcounted.2
      simp [netifNodeGettype, hlast, hsub] at htypes
    | field => exact oneText_netifField h hg htype

/-- What is printed for the value of a visit. -/
theorem content_of_visit (h : Sound (.ofEnv cfg env) node) (hg : g.InRange)
    (hcounted : Visit.Counted ⟨g, node⟩) {type : DbNodeType}
    (htype : dbNodeGetType (.ofEnv cfg env) g node = .ok type)
    (hleaf : type ≠ .null ∧ type ≠ .inner) :
    ∃ text, ∀ stack r, printNodeContent (.ofEnv cfg env) stack g node = .ok r → r.2 = text := by
  cases type with
  | null => exact absurd rfl hleaf.1
  | inner => exact absurd rfl hleaf.2
  | int =>
    cases hv : dbNodeGetIntValue (.ofEnv cfg env) g node with
    | error t =>
      refine ⟨.lit "", fun stack r hr => ?_⟩
      obtain ⟨x, hval, -⟩ := bind_eq_ok.mp hr
      rw [valueToStr_int (by decide) htype, hv] at hval
      cases hval
    | ok x =>
      refine ⟨numberText dcaShellStrbufSize (fmtS32Dec x.2), fun stack r hr => ?_⟩
      obtain ⟨b, hval, hs⟩ := valueToStr_of_int (by decide) htype hv stack.str
      obtain rfl := Except.ok.inj ((printContent_eq hval hs).symm.trans hr)
      rfl
  | float =>
    cases hv : dbNodeGetFloatValue (.ofEnv cfg env) g node with
    | error t =>
      refine ⟨.lit "", fun stack r hr => ?_⟩
      obtain ⟨x, hval, -⟩ := bind_eq_ok.mp hr
      simp only [dbNodeValueToStr, show 4 ≤ dcaShellStrbufSize by decide, decide_true, assert_true,
        ok_bind, htype, hv, error_bind] at hval
      cases hval
    | ok v =>
      refine ⟨numberText dcaShellStrbufSize (env.fmtFloat v floatPrescision), fun stack r hr => ?_⟩
      obtain rfl := Except.ok.inj ((printContent_float htype hv).symm.trans hr)
      rfl
  | str =>
    obtain ⟨text, htext⟩ := oneText_of_visit h hg hcounted htype
      (show 0 < dcaShellStrbufSize by decide)
    refine ⟨text, fun stack r hr => ?_⟩
    obtain ⟨x, hval, -⟩ := bind_eq_ok.mp hr
    rw [valueToStr_str (by decide) htype] at hval
    obtain ⟨⟨b, size⟩, hget, hval⟩ := bind_eq_ok.mp hval
    obtain ⟨x', hterm, -⟩ := bind_eq_ok.mp hval
    obtain ⟨b', hset, -⟩ := bind_eq_ok.mp hterm
    have hlt : size < dcaShellStrbufSize := by
      have hset : b.set size nul = some b' := inBounds_eq_ok.mp hset
      unfold Buf.set at hset
      split_ifs at hset with hlt
      exact hlt
    obtain ⟨hs, hle⟩ := htext stack.str _ hget
    obtain rfl := Except.ok.inj ((printContent_str htype hget hs hle hlt).symm.trans hr)
    rfl

/-- **What is printed for a visit** does not depend on what the stack holds. -/
theorem print_stacks {addrs : List Ipv6Addr} {v : Visit} (h : v.Sound (.ofEnv cfg env) addrs)
    (hg : v.g.InRange) (hcounted : v.Counted) {stack stack' : Stack} {depth : Nat} {p p' : Printed}
    (hp : v.print (.ofEnv cfg env) stack depth = .ok p)
    (hp' : v.print (.ofEnv cfg env) stack' depth = .ok p') : p = p' := by
  obtain ⟨name, hname⟩ := oneName_of_visit h hg hcounted
  have hprinted : ∀ {stack s}, printNodeName (.ofEnv cfg env) stack v.g v.node = .ok s →
      s = name := by
    intro stack s hs
    obtain ⟨b, hb, hs⟩ := bind_eq_ok.mp hs
    obtain ⟨k, -, hs⟩ := bind_eq_ok.mp hs
    obtain rfl := Except.ok.inj hs
    exact hname _ b hb
  obtain ⟨s, hs, hp⟩ := bind_eq_ok.mp hp
  obtain ⟨s', hs', hp'⟩ := bind_eq_ok.mp hp'
  obtain rfl := (hprinted hs).trans (hprinted hs').symm
  obtain ⟨type, htype, hp⟩ := bind_eq_ok.mp hp
  obtain ⟨type', htype', hp'⟩ := bind_eq_ok.mp hp'
  obtain rfl := Except.ok.inj (htype.symm.trans htype')
  cases type with
  | null | inner => exact Except.ok.inj (hp.symm.trans hp')
  | int | float | str =>
    obtain ⟨text, htext⟩ := content_of_visit h.node hg hcounted htype ⟨by simp, by simp⟩
    obtain ⟨r, hr, hp⟩ := bind_eq_ok.mp hp
    obtain ⟨r', hr', hp'⟩ := bind_eq_ok.mp hp'
    obtain rfl := Except.ok.inj hp
    obtain rfl := Except.ok.inj hp'
    rw [htext _ r hr, htext _ r' hr']

end Printed

/-! ## Whole dumps -/

section Dumps

variable {cfg : Config} {env : Env} {g : Globals}

/-- Lists that match one list are the same if the relations give each entry one match. -/
theorem eq_of_forall₂ {α β : Type} {R R' : α → β → Prop} {l : List α} {out out' : List β}
    (h : List.Forall₂ R l out) (h' : List.Forall₂ R' l out')
    (hunique : ∀ x ∈ l, ∀ p p', R x p → R' x p' → p = p') : out = out' := by
  induction h generalizing out' with
  | nil =>
    cases h'
    rfl
  | cons hp _ ih =>
    cases h' with
    | cons hp' h' =>
      obtain ⟨hx, hunique⟩ := List.forall_mem_cons.mp hunique
      rw [hx _ _ hp hp', ih h' hunique]

/-- **Two dumps from one state print the same**, whatever the stacks hold. -/
theorem dump_stacks (hfirst : env.FirstThread) (hdistinct : env.CachesDistinct) (hg : g.InRange)
    {stack stack' : Stack} {fuel fuel' : Nat} {r r' : Globals × List Printed}
    (h : dcadump (.ofEnv cfg env) stack fuel g = .ok r)
    (h' : dcadump (.ofEnv cfg env) stack' fuel' g = .ok r') : r.2 = r'.2 := by
  obtain ⟨-, hprints⟩ := prints_of_dcadump hfirst hg h
  obtain ⟨-, hprints'⟩ := prints_of_dcadump hfirst hg h'
  have hsound : Forest.All (Visit.Sound (.ofEnv cfg env) (env.allAddrs g)) _ :=
    rootDump_sound hfirst (caches_allAddrs env g) (known_allAddrs env g)
  have hcounted : Forest.All Visit.Counted _ := rootDump_counted cfg hdistinct g
  have htour : TourTo (.ofEnv cfg env) stack.node g dbGetRoot _ _ := (tourTo_root hfirst hg).1
  have hrange : Forest.All (fun v : Visit => v.g.InRange) _ :=
    ((keeps_inRange (dbIndex cfg)).calls env).tourTo htour hg
  refine eq_of_forall₂ hprints hprints' fun x hx p p' hp hp' => ?_
  exact print_stacks (hsound.of_mem_preorder hx) (hrange.of_mem_preorder hx)
    (hcounted.of_mem_preorder hx) hp hp'

end Dumps

end Dca
