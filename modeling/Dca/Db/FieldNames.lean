import Dca.Db.Names
import Dca.Db.Steps

/-!
# The fields of an interface by name

The children of an interface are five fields with fixed names, and the children of a field are the
fields behind it. A component that is the beginning of one of these names is found there, whatever
the neighbours are (`descend_fields`). Only a component that leads past the last field makes
the search look at `_num_neighbours`.
-/

namespace Dca

open CLib

/-- `field_names[]` of `netif.c` -/
def netifFieldNames : List String :=
  ["pid", "inet6 addr", "Link type", "num_neighbours", "neighbours"]

theorem netifFieldName_eq (k : UInt8) : netifFieldName k = netifFieldNames[k.toNat]? := by
  by_cases hk : k.toNat < 5
  · have hcases : k = 0 ∨ k = 1 ∨ k = 2 ∨ k = 3 ∨ k = 4 := by
      simp only [← UInt8.toNat_inj]
      show k.toNat = 0 ∨ k.toNat = 1 ∨ k.toNat = 2 ∨ k.toNat = 3 ∨ k.toNat = 4
      omega
    rcases hcases with rfl | rfl | rfl | rfl | rfl <;> rfl
  · have hne : ∀ j : UInt8, j.toNat < 5 → k ≠ j := by
      rintro j hj rfl
      exact hk hj
    rw [List.getElem?_eq_none (Nat.not_lt.mp hk), netifFieldName, if_neg (hne 0 (by decide)),
      if_neg (hne 1 (by decide)), if_neg (hne 2 (by decide)), if_neg (hne 3 (by decide)),
      if_neg (hne 4 (by decide))]

theorem netifFieldNames_short :
    ∀ field ∈ netifFieldNames, (CString.lit field).length < dbNodeNameMax := by
  decide

/-- Looked up one behind the other among the fields, the components lead past the last one. -/
def PastFields : List String → List (List Char) → Prop
  | [], comps => comps ≠ []
  | _ :: _, [] => False
  | field :: ahead, comp :: comps =>
    if comp <+: (CString.lit field).chars then PastFields ahead comps
    else PastFields ahead (comp :: comps)

instance PastFields.decidable :
    (fields : List String) → (comps : List (List Char)) → Decidable (PastFields fields comps)
  | [], comps => inferInstanceAs (Decidable (comps ≠ []))
  | _ :: _, [] => inferInstanceAs (Decidable False)
  | field :: ahead, comp :: comps =>
    if h : comp <+: (CString.lit field).chars then
      @decidable_of_iff _ (PastFields ahead comps) (by rw [PastFields, if_pos h])
        (PastFields.decidable ahead comps)
    else
      @decidable_of_iff _ (PastFields ahead (comp :: comps)) (by rw [PastFields, if_neg h])
        (PastFields.decidable ahead (comp :: comps))

/-- A component that does not lead past the fields is the beginning of the name of one. -/
theorem exists_field_of_not_past {fields : List String} {comp : List Char}
    {comps : List (List Char)} (h : ¬ PastFields fields (comp :: comps)) :
    ∃ skipped field ahead, fields = skipped ++ field :: ahead ∧
      (∀ f ∈ skipped, ¬ comp <+: (CString.lit f).chars) ∧ comp <+: (CString.lit field).chars ∧
      ¬ PastFields ahead comps := by
  induction fields with
  | nil => exact absurd (List.cons_ne_nil _ _) h
  | cons field fields ih =>
    rw [PastFields] at h
    split_ifs at h with hp
    · exact ⟨[], field, fields, rfl, by simp, hp, h⟩
    · obtain ⟨skipped, field', ahead, rfl, hskipped, hfield, hahead⟩ := ih h
      refine ⟨field :: skipped, field', ahead, rfl, ?_, hfield, hahead⟩
      exact List.forall_mem_cons.mpr ⟨hp, hskipped⟩

variable {db : Db}

/-! ## One field -/

/-- The field at a position, as the front of the fields from there on. -/
theorem field_of_drop {k : UInt8} {field : String} {ahead : List String}
    (h : netifFieldNames.drop k.toNat = field :: ahead) :
    k < netifCount ∧ netifFieldName k = some field := by
  have hget : netifFieldNames[k.toNat]? = some field := by
    have h' : (netifFieldNames.drop k.toNat)[0]? = some field := by
      rw [h]
      rfl
    rw [List.getElem?_drop, Nat.add_zero] at h'
    exact h'
  obtain ⟨hlt, -⟩ := List.getElem?_eq_some_iff.mp hget
  exact ⟨hlt, by rw [netifFieldName_eq, hget]⟩

theorem field_short {k : Nat} {field : String} {ahead : List String}
    (h : netifFieldNames.drop k = field :: ahead) :
    (CString.lit field).length < dbNodeNameMax := by
  refine netifFieldNames_short field (List.mem_of_mem_drop (i := k) ?_)
  rw [h]
  exact List.mem_cons_self

theorem netifNodeGettype_ne_null (g : Globals) (level : NetifLevel) :
    netifNodeGettype g level ≠ .null := by
  unfold netifNodeGettype
  split_ifs <;> simp

theorem isNull_netif (g : Globals) (iface : Option Nat) (level : NetifLevel) :
    dbNodeIsNull db g (.netif iface level) = .ok false := by
  have htype : dbNodeGetType db g (.netif iface level) = .ok (netifNodeGettype g level) := rfl
  rw [dbNodeIsNull_eq htype, decide_eq_false (netifNodeGettype_ne_null g level)]

variable (db) in
theorem getName_field {g : Globals} {field : String} {ahead : List String}
    (h : netifFieldNames.drop g.netifFieldCount.toNat = field :: ahead) (i : Nat) (b : NameBuf) :
    dbNodeGetName db g (.netif (some i) .field) b = .ok (b.strncpy (.lit field)) := by
  obtain ⟨hlt, hname⟩ := field_of_drop h
  have hstr := Buf.str_strncpy b (Nat.le_of_lt (field_short h))
  have hget : dbNodeGetName db g (.netif (some i) .field) b
      = .ok ((b.strncpy (.lit field)).strncpy (b.strncpy (.lit field)).str) := by
    simp [dbNodeGetName, netifNodeGetname, netifNodeGetFieldName, hlt, hname, assert]
  rw [hget, hstr]
  rfl

/-- The comparison with the name of a field never gets to the end of the name buffer. -/
theorem memcmp_field {g : Globals} {field : String} {ahead : List String}
    (h : netifFieldNames.drop g.netifFieldCount.toNat = field :: ahead) {comp : List Char}
    (hcomp : nul ∉ comp) (b : NameBuf) :
    Buf.memcmp comp (b.strncpy (.lit field)).chars
      = some (decide (comp <+: (CString.lit field).chars)) := by
  have hshort := field_short h
  have hoverruns : ¬ Buf.Overruns dbNodeNameMax (CString.lit field).chars comp :=
    fun ho => absurd ho.1 (Nat.ne_of_lt hshort)
  have hcmp := Buf.memcmp_strncpyBytes (Nat.le_of_lt hshort) hcomp
  rw [if_neg hoverruns] at hcmp
  refine hcmp.trans ?_
  split_ifs with hp
  · rw [decide_eq_true hp]
  · rw [decide_eq_false hp]

/-! ## The search among the fields -/

/-- The names of the fields from the first child of a node on. -/
def DbNode.fieldsAhead (g : Globals) : DbNode → List String
  | .netif _ .iface => netifFieldNames.drop g.netifFieldCount.toNat
  | .netif _ .field => netifFieldNames.drop (g.netifFieldCount.toNat + 1)
  | _ => []

variable (db) in
/-- From a field on, the next field is the next child. -/
theorem getNextChild_field {g : Globals}
    (h : netifFieldNames.drop (g.netifFieldCount.toNat + 1) ≠ []) (iface : Option Nat)
    (child : DbNode) :
    dbNodeGetNextChild db ⟨g, .netif iface .field, child⟩
        = .ok ⟨{ g with netifFieldCount := g.netifFieldCount + 1 }, .netif iface .field, child⟩ ∧
      (g.netifFieldCount + 1).toNat = g.netifFieldCount.toNat + 1 := by
  have hlen : g.netifFieldCount.toNat + 1 < 5 := by
    by_contra hge
    exact h (List.drop_eq_nil_of_le (Nat.not_lt.mp hge))
  have hlt : g.netifFieldCount < netifCount - 1 := by
    show g.netifFieldCount.toNat < 4
    omega
  have hlast : ¬ g.netifFieldCount = netifCount - 1 := UInt8.ne_of_lt hlt
  constructor
  · show netifGetnextChildBody db.env (netifGetnextChildDepth db.env 1)
      ⟨g, .netif iface .field, child⟩ = _
    simp only [netifGetnextChildBody, hlast, hlt, false_and, if_false, if_true]
  · rw [UInt8.toNat_add]
    exact Nat.mod_eq_of_lt (by show g.netifFieldCount.toNat + 1 < 256; omega)

variable (db) in
/-- The first child is the first field ahead. -/
theorem getNextChild_fieldsAhead {g : Globals} {node : DbNode} {i : Nat}
    (hnode : node = .netif (some i) .iface ∨ node = .netif (some i) .field)
    (hne : node.fieldsAhead g ≠ []) :
    ∃ iface k, dbNodeGetNextChild db ⟨g, node, node⟩
        = .ok ⟨{ g with netifFieldCount := k }, .netif iface .field, .netif (some i) .field⟩ ∧
      netifFieldNames.drop k.toNat = node.fieldsAhead g := by
  rcases hnode with rfl | rfl
  · have hlt : g.netifFieldCount < netifCount := by
      by_contra hge
      exact hne (List.drop_eq_nil_of_le (Nat.not_lt.mp hge))
    refine ⟨db.env.netifIter (some i), g.netifFieldCount, ?_, rfl⟩
    show netifGetnextChildBody db.env (netifGetnextChildDepth db.env 1)
      ⟨g, .netif (some i) .iface, _⟩ = _
    simp [netifGetnextChildBody, hlt, netifNodeInit]
  · obtain ⟨hnext, hnat⟩ := getNextChild_field db hne (some i) (.netif (some i) .field)
    exact ⟨some i, g.netifFieldCount + 1, hnext, by rw [hnat]; rfl⟩

/-- From a child that is a field, the search goes past the names that differ. -/
theorem searchChild_fields {comp : List Char} (hcomp : nul ∉ comp) {skipped ahead : List String}
    {field : String} (hskipped : ∀ f ∈ skipped, ¬ comp <+: (CString.lit f).chars)
    (hfield : comp <+: (CString.lit field).chars) {g : Globals} {iface : Option Nat} {i : Nat}
    {s : Search}
    (hnext : dbNodeGetNextChild db s.cur = .ok ⟨g, .netif iface .field, .netif (some i) .field⟩)
    (hdrop : netifFieldNames.drop g.netifFieldCount.toNat = skipped ++ field :: ahead)
    (fuel : Nat) :
    ∃ k, netifFieldNames.drop k.toNat = field :: ahead ∧
      searchChild db comp fuel s = if skipped.length < fuel then
          .ok (true, ⟨⟨{ g with netifFieldCount := k }, .netif iface .field,
            .netif (some i) .field⟩, s.nameBuf.strncpy (.lit field)⟩)
        else .error .fuel := by
  induction skipped generalizing g s fuel with
  | nil =>
    refine ⟨g.netifFieldCount, hdrop, ?_⟩
    cases fuel with
    | zero => rfl
    | succ fuel =>
      have hname := getName_field db hdrop i s.nameBuf
      have hcmp := memcmp_field hdrop hcomp s.nameBuf
      rw [decide_eq_true hfield] at hcmp
      simp [searchChild, hnext, isNull_netif, hname, hcmp, inBounds]
  | cons f skipped ih =>
    obtain ⟨hf, hskipped⟩ := List.forall_mem_cons.mp hskipped
    have hdrop' : netifFieldNames.drop (g.netifFieldCount.toNat + 1)
        = skipped ++ field :: ahead := by
      rw [← List.drop_drop, hdrop]
      rfl
    have hname := getName_field db hdrop i s.nameBuf
    have hcmp := memcmp_field hdrop hcomp s.nameBuf
    rw [decide_eq_false hf] at hcmp
    obtain ⟨hnext', hnat⟩ := getNextChild_field db (g := g)
      (by rw [hdrop']; simp) iface (.netif (some i) .field)
    cases fuel with
    | zero =>
      obtain ⟨k, hk, -⟩ := ih hskipped (s := ⟨_, s.nameBuf⟩) hnext' (by rw [hnat]; exact hdrop') 0
      exact ⟨k, hk, rfl⟩
    | succ fuel =>
      obtain ⟨k, hk, hsearch⟩ := ih hskipped (s := ⟨_, s.nameBuf.strncpy (.lit f)⟩) hnext'
        (by rw [hnat]; exact hdrop') fuel
      refine ⟨k, hk, ?_⟩
      have hround : searchChild db comp (fuel + 1) s
          = searchChild db comp fuel ⟨⟨g, .netif iface .field, .netif (some i) .field⟩,
            s.nameBuf.strncpy (.lit f)⟩ := by
        simp [searchChild, hnext, isNull_netif, hname, hcmp, inBounds]
      rw [hround, hsearch, List.length_cons]
      simp only [Nat.add_lt_add_iff_right]
      rfl

/-- **A component that begins the name of a field ahead is found there**, given enough fuel. -/
theorem descend_fields {comp : List Char} (hcomp : nul ∉ comp) {d : Descent} {i : Nat}
    (hnode : d.node = .netif (some i) .iface ∨ d.node = .netif (some i) .field)
    {skipped ahead : List String} {field : String}
    (hahead : d.node.fieldsAhead d.g = skipped ++ field :: ahead)
    (hskipped : ∀ f ∈ skipped, ¬ comp <+: (CString.lit f).chars)
    (hfield : comp <+: (CString.lit field).chars) (fuel : Nat) :
    ∃ k, netifFieldNames.drop k.toNat = field :: ahead ∧
      descend db fuel d comp = if skipped.length < fuel then
          .ok ⟨{ d.g with netifFieldCount := k }, .netif (some i) .field,
            d.nameBuf.strncpy (.lit field)⟩
        else .error (.trap .fuel) := by
  obtain ⟨iface, k₀, hnext, hdrop⟩ := getNextChild_fieldsAhead db hnode
    (by rw [hahead]; simp)
  obtain ⟨k, hk, hsearch⟩ := searchChild_fields hcomp hskipped hfield
    (s := ⟨⟨d.g, d.node, d.node⟩, d.nameBuf⟩) hnext (by rw [← hahead]; exact hdrop) fuel
  refine ⟨k, hk, ?_⟩
  rw [descend, hsearch]
  split_ifs <;> rfl

/-- The position of a field follows from the fields from there on. -/
theorem position_of_drop {j k : UInt8} {field : String} {ahead : List String}
    (hj : netifFieldNames.drop j.toNat = field :: ahead)
    (hk : netifFieldNames.drop k.toNat = field :: ahead) : j = k := by
  have hjlen := congrArg List.length hj
  have hklen := congrArg List.length hk
  rw [List.length_drop, List.length_cons] at hjlen hklen
  rw [← UInt8.toNat_inj]
  omega

end Dca
