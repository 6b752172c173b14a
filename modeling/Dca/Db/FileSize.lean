import Dca.Db.Files
import Dca.Db.Report

/-!
# The size of a file

`st_size` and the end of a file come from `get_size`, and what reads deliver comes from the text of
the value. The two agree for the texts of `board.c`, whose size is that of the text. Everywhere else
the size is that of another representation: 4 for a number, 4 for the state of a process, 0 for the
class of a device and mostly the length of the address for a field of an interface.
-/

namespace Dca

open CLib

/-! ## The statement -/

section Statement

variable (db : Db) {w : FileWidth}

/-- Reads that ask for something deliver so many bytes until one returns 0. -/
inductive ReadsAll : FileState w → Nat → Prop where
  | done {s s' : FileState w} {nbytes : w.Word} {data : Buf dcafsMaxStrLen} {reply : FileReply}
      (hasked : 0 < nbytes.toNat) (hcall : s.call db (.read nbytes data) = .ok (s', reply))
      (hret : reply.ret = 0) : ReadsAll s 0
  | more {s s' : FileState w} {nbytes : w.Word} {data : Buf dcafsMaxStrLen} {reply : FileReply}
      {k : Nat} (hcall : s.call db (.read nbytes data) = .ok (s', reply)) (hret : 0 < reply.ret)
      (hrest : ReadsAll s' k) : ReadsAll s (reply.ret.toNat + k)

/--
There is one number of bytes that reads from the start deliver, and `dcafs_fstat`, `dcafs_stat` for
every path to the node, and a seek to the end give it.
-/
def SizeIsContents (w : FileWidth) (g : Globals) (node : DbNode) : Prop :=
  ∃ n : Nat, (∀ k, ReadsAll db (⟨g, ⟨0#w.bits, node⟩⟩ : FileState w) k ↔ k = n) ∧
    (∃ st, dcafsFstat db g (⟨0#w.bits, node⟩ : VfsFile w) = .ok st ∧ st.stSize.toNat = n) ∧
    (∃ filp, dcafsLseek db g (⟨0#w.bits, node⟩ : VfsFile w) (0#w.bits) .seekEnd = .ok (filp, n) ∧
      filp.pos.toNat = n) ∧
    ∀ (fuel : Nat) (g₀ : Globals) (path : CString) (child : DbNode) (nameBuf : NameBuf),
      dbFindNodeByPath db fuel g₀ path child nameBuf = .ok ⟨g, 0, node⟩ →
      ∃ st, dcafsStat db w fuel g₀ path child nameBuf = .ok (g, 0, some st) ∧ st.stSize.toNat = n

/-- The numbers whose texts have four characters. -/
def FourChars (v : Int) : Prop := (1000 ≤ v ∧ v ≤ 9999) ∨ (-999 ≤ v ∧ v ≤ -100)

/-- The size of a leaf of `netif.c`: 4 in two cases, and that of the address of the interface. -/
def NetifSized (env : Env) (g : Globals) (iface : Option Nat) (level : NetifLevel) (n : Nat) :
    Prop :=
  if (level = .field ∧ g.netifFieldCount = 2) ∨ (level = .qos ∧ g.netifSubFieldCount < qosCount) then
    n = 4
  else ∃ i, env.ifaceAt iface = some i ∧ n = (i.addrText env).length

/-- When the value of a leaf has the size that `get_size` gives. -/
def SizeFits (g : Globals) (node : DbNode) : Prop :=
  match dbNodeGetType db g node, node with
  | .ok .int, .netif iface level => ∃ r, dbNodeGetIntValue db g node = .ok r ∧
      NetifSized db.env g iface level (fmtS32Dec r.2).length
  | .ok .int, _ => ∃ r, dbNodeGetIntValue db g node = .ok r ∧ FourChars r.2
  | .ok .float, .netif iface level => ∃ v, dbNodeGetFloatValue db g node = .ok v ∧
      NetifSized db.env g iface level (db.env.fmtFloat v dcafsFloatPrecision).length
  | .ok .float, _ => ∃ v, dbNodeGetFloatValue db g node = .ok v ∧
      (db.env.fmtFloat v dcafsFloatPrecision).length = 4
  | .ok .str, .fl flIdx subIdx _ =>
    ∃ text, boardText db.env flIdx subIdx = some text ∧ text.length < dcafsMaxStrLen
  | .ok .str, .saul dev _ =>
    g.saulFieldCount = 0 ∧ ∃ r, db.env.saulAt dev = some r ∧
      (db.env.saulClassToStr r.type).length = 0
  | .ok .str, .netif iface level =>
    iface.isSome ∧ ∃ text, strText db g node = some text ∧
      NetifSized db.env g iface level text.length
  | _, _ => False

end Statement

/-! ## Contents -/

variable {db : Db} {w : FileWidth} {g : Globals} {node : DbNode} {size : Nat}
  {G : Globals → Prop}

/-- In all states of a class the value has a text of the size, and reading it keeps the class. -/
structure HasContents (db : Db) (node : DbNode) (size : Nat) (G : Globals → Prop) : Prop where
  fits : size ≤ dcafsMaxStrLen
  value : ∀ g, G g → ∀ data, ∃ g' b,
    dcafsReadValue db g node data = .ok (g', some (b, size)) ∧ G g'

/-- How much a read delivers where the text of the value has the size. -/
theorem call_length {s : FileState w} {g' : Globals} {data b : Buf dcafsMaxStrLen}
    (hvalue : dcafsReadValue db s.g s.filp.node data = .ok (g', some (b, size)))
    (hfits : size ≤ dcafsMaxStrLen) (hpos : 0 ≤ s.filp.pos.toInt) (nbytes : w.Word) :
    ∃ (s' : FileState w) (dest : List Char),
      s.call db (.read nbytes data) = .ok (s', ⟨dest.length, dest⟩) ∧
      s'.filp.node = s.filp.node ∧ s'.g = g' ∧ 0 ≤ s'.filp.pos.toInt ∧
      dest.length = min nbytes.toNat (size - s.filp.pos.toNat) ∧
      s'.filp.pos.toNat = s.filp.pos.toNat + dest.length := by
  obtain ⟨s', hcall, hg', hnode, hpos', hmoved⟩ := call_of_value hvalue hfits hpos nbytes
  have hlen : (b.chars.take size).length = size := by
    rw [List.length_take, b.size]
    exact Nat.min_eq_left hfits
  exact ⟨s', _, hcall, hnode, hg', hpos', by rw [length_chunk, hlen], hmoved⟩

/-- At the end a read returns 0. -/
theorem readsAll_end {s : FileState w} {g' : Globals} {data b : Buf dcafsMaxStrLen}
    (hvalue : dcafsReadValue db s.g s.filp.node data = .ok (g', some (b, size)))
    (hfits : size ≤ dcafsMaxStrLen) (hpos : 0 ≤ s.filp.pos.toInt)
    (hend : size ≤ s.filp.pos.toNat) : ReadsAll db s 0 := by
  have hone : (BitVec.ofNat w.bits 1).toNat = 1 := toNat_size (by decide)
  obtain ⟨s', dest, hcall, -, -, -, hlen, -⟩ :=
    call_length hvalue hfits hpos (BitVec.ofNat w.bits 1)
  refine .done (by omega) hcall ?_
  show (dest.length : Int) = 0
  omega

namespace HasContents

variable (h : HasContents db node size G)
include h

theorem call_read {s : FileState w} (hnode : s.filp.node = node) (hg : G s.g)
    (hpos : 0 ≤ s.filp.pos.toInt) (nbytes : w.Word) (data : Buf dcafsMaxStrLen) :
    ∃ (s' : FileState w) (dest : List Char),
      s.call db (.read nbytes data) = .ok (s', ⟨dest.length, dest⟩) ∧ s'.filp.node = node ∧ G s'.g ∧
      0 ≤ s'.filp.pos.toInt ∧ dest.length = min nbytes.toNat (size - s.filp.pos.toNat) ∧
      s'.filp.pos.toNat = s.filp.pos.toNat + dest.length := by
  subst hnode
  obtain ⟨g', b, hvalue, hg'⟩ := h.value s.g hg data
  obtain ⟨s', dest, hcall, hnode', rfl, hmoved⟩ := call_length hvalue h.fits hpos nbytes
  exact ⟨s', dest, hcall, hnode', hg', hmoved⟩

/-- Reads deliver what is left, by induction on the reads. -/
theorem left_of_readsAll {s : FileState w} {k : Nat} (hall : ReadsAll db s k)
    (hnode : s.filp.node = node) (hg : G s.g) (hpos : 0 ≤ s.filp.pos.toInt) :
    k = size - s.filp.pos.toNat := by
  induction hall with
  | @done s s' nbytes data reply hasked hcall hret =>
    obtain ⟨s'', dest, hcall', -, -, -, hlen, -⟩ := h.call_read hnode hg hpos nbytes data
    obtain ⟨-, rfl⟩ := Prod.mk.inj (Except.ok.inj (hcall'.symm.trans hcall))
    have hnone : (dest.length : Int) = 0 := hret
    omega
  | @more s s' nbytes data reply k hcall hret _ ih =>
    obtain ⟨s'', dest, hcall', hnode', hg', hpos', hlen, hmoved⟩ :=
      h.call_read hnode hg hpos nbytes data
    obtain ⟨rfl, rfl⟩ := Prod.mk.inj (Except.ok.inj (hcall'.symm.trans hcall))
    rw [ih hnode' hg' hpos', hmoved]
    show (dest.length : Int).toNat + _ = _
    omega

/-- **Reads deliver what is left**, whatever they ask for. -/
theorem readsAll_iff {s : FileState w} (hnode : s.filp.node = node) (hg : G s.g)
    (hpos : 0 ≤ s.filp.pos.toInt) (k : Nat) :
    ReadsAll db s k ↔ k = size - s.filp.pos.toNat := by
  refine ⟨fun hall => h.left_of_readsAll hall hnode hg hpos, ?_⟩
  rintro rfl
  have hstop {s' : FileState w} (hnode' : s'.filp.node = node) (hg' : G s'.g)
      (hpos' : 0 ≤ s'.filp.pos.toInt) (hend : size ≤ s'.filp.pos.toNat) : ReadsAll db s' 0 := by
    subst hnode'
    obtain ⟨g', b, hvalue, -⟩ := h.value s'.g hg' (Buf.zero _)
    exact readsAll_end hvalue h.fits hpos' hend
  by_cases hend : size ≤ s.filp.pos.toNat
  · rw [Nat.sub_eq_zero_of_le hend]
    exact hstop hnode hg hpos hend
  · -- one read takes all of it
    have hsize : (BitVec.ofNat w.bits size).toNat = size := toNat_size h.fits
    obtain ⟨s', dest, hcall, hnode', hg', hpos', hlen, hmoved⟩ :=
      h.call_read hnode hg hpos (BitVec.ofNat w.bits size) (Buf.zero _)
    have hleft : dest.length = size - s.filp.pos.toNat := by omega
    have hret : 0 < (dest.length : Int) := by omega
    have hall := ReadsAll.more hcall hret (hstop hnode' hg' hpos' (by omega))
    rwa [Nat.add_zero, Int.toNat_natCast, hleft] at hall

end HasContents

/-! ## Where the size is reported -/

theorem readValue_of_call {s : FileState w} {nbytes : w.Word} {data : Buf dcafsMaxStrLen}
    {r : FileState w × FileReply} (h : s.call db (.read nbytes data) = .ok r) :
    ∃ r', dcafsReadValue db s.g s.filp.node data = .ok r' := by
  obtain ⟨r', hread, -⟩ := bind_eq_ok.mp h
  obtain ⟨r'', hvalue, -⟩ := bind_eq_ok.mp hread
  exact ⟨r'', hvalue⟩

/-- A value that cannot be read has no contents. -/
theorem not_sizeIsContents (h : ∀ data r, dcafsReadValue db g node data ≠ .ok r) :
    ¬ SizeIsContents db w g node := by
  rintro ⟨n, hall, -⟩
  have hvalue : ∃ data r, dcafsReadValue db g node data = .ok r := by
    cases (hall n).mpr rfl with
    | done _ hcall _ => exact ⟨_, readValue_of_call hcall⟩
    | more hcall _ _ => exact ⟨_, readValue_of_call hcall⟩
  obtain ⟨data, r, hvalue⟩ := hvalue
  exact h data r hvalue

theorem writeStat_eq (hleaf : IsLeafAt db g node) {n : Nat} (hsize : dbNodeGetSize db g node = .ok n) :
    ∃ st, dcafsWriteStat db w g node = .ok st ∧ st.stSize = BitVec.ofNat w.bits n := by
  obtain ⟨type, htype, hnull, -⟩ := hleaf
  have hnot : (!decide (type = .null)) = true := by simp [hnull]
  simp only [dcafsWriteStat, dbNodeIsNull, htype, hsize, ok_bind, pure_eq_ok, hnot, assert_true]
  exact ⟨_, rfl, rfl⟩

theorem getSize_of_writeStat {st : Stat w} (h : dcafsWriteStat db w g node = .ok st) :
    ∃ n, dbNodeGetSize db g node = .ok n ∧ st.stSize = BitVec.ofNat w.bits n := by
  obtain ⟨isNull, -, h⟩ := bind_eq_ok.mp h
  obtain ⟨_, -, h⟩ := bind_eq_ok.mp h
  obtain ⟨type, -, h⟩ := bind_eq_ok.mp h
  obtain ⟨n, hsize, h⟩ := bind_eq_ok.mp h
  exact ⟨n, hsize, (congrArg Stat.stSize (Except.ok.inj h)).symm⟩

/-- **The places where the size is reported give what `get_size` gives.** -/
theorem HasContents.reported_iff (h : HasContents db node size G) (hg : G g)
    (hleaf : IsLeafAt db g node)
    (hsmall : ∀ n, dbNodeGetSize db g node = .ok n → n ≤ dcafsMaxStrLen) :
    SizeIsContents db w g node ↔ dbNodeGetSize db g node = .ok size := by
  have hstart : (0#w.bits).toNat = 0 := by simp
  have hpos : 0 ≤ (0#w.bits).toInt := start_nonneg
  have hreads (k : Nat) : ReadsAll db (⟨g, ⟨0#w.bits, node⟩⟩ : FileState w) k ↔ k = size := by
    rw [h.readsAll_iff rfl hg hpos, hstart, Nat.sub_zero]
  constructor
  · rintro ⟨n, hall, ⟨st, hstat, hst⟩, -⟩
    obtain rfl : n = size := (hreads n).mp ((hall n).mpr rfl)
    obtain ⟨m, hm, heq⟩ := getSize_of_writeStat hstat
    rw [heq, toNat_size (hsmall m hm)] at hst
    rw [hm, hst]
  · intro hsize
    have hnat : (BitVec.ofNat w.bits size).toNat = size := toNat_size h.fits
    have hint : (BitVec.ofNat w.bits size).toInt = size := by
      rw [toInt_of_small (by rw [hnat]; exact h.fits), hnat]
    obtain ⟨st, hstat, hst⟩ := writeStat_eq (w := w) hleaf hsize
    refine ⟨size, hreads, ⟨st, hstat, by rw [hst, hnat]⟩, ⟨⟨BitVec.ofNat w.bits size, node⟩, ?_, hnat⟩,
      ?_⟩
    · have htarget : ¬ (size : Int) < 0 := by omega
      simp only [dcafsLseek, hsize, ok_bind, pure_eq_ok, BitVec.zero_add, hint, if_neg htarget]
    · intro fuel g₀ path child nameBuf hfind
      refine ⟨st, ?_, by rw [hst, hnat]⟩
      simp only [dcafsStat, hfind, ok_bind, hstat, pure_eq_ok]
      rfl

/-! ## The value -/

/-- A value that has been read is read again. -/
theorem intValue_again {g' : Globals} {v : Int} (h : dbNodeGetIntValue db g node = .ok (g', v)) :
    ∃ g'', dbNodeGetIntValue db g' node = .ok (g'', v) := by
  have hg' := intValue_afterValue h
  cases node with
  | null | root _ | saul _ _ => exact ⟨g', hg' ▸ h⟩
  | fl flIdx subIdx isRoot => exact ⟨g', hg' ▸ h⟩
  | ps pid level => exact ⟨g', hg' ▸ h⟩
  | netif iface level =>
    obtain ⟨hfield, hsub, -⟩ := afterValue_frame db.env g (.netif iface level)
    rw [← hg'] at hfield hsub
    have htype : dbNodeGetType db g' (.netif iface level) = dbNodeGetType db g (.netif iface level) := by
      simp only [dbNodeGetType, netifNodeGettype, hfield, hsub]
    simp only [dbNodeGetIntValue, htype] at h ⊢
    obtain ⟨type, hok, hread⟩ := bind_eq_ok.mp h
    obtain ⟨_, hassert, hread⟩ := bind_eq_ok.mp hread
    have hagain := netifNodeGetintValue_congr db.env iface hfield
    rw [hread, map_ok] at hagain
    rw [hok, ok_bind, hassert, ok_bind]
    cases hr : netifNodeGetintValue db.env g' iface with
    | error t =>
      rw [hr] at hagain
      cases hagain
    | ok r =>
      rw [hr] at hagain
      exact ⟨r.1, congrArg Except.ok (Prod.ext rfl (Except.ok.inj hagain))⟩

/-- A text that is written to the array has its size, or it leaves the array. -/
theorem stored_sizeIsContents_iff (text : CString)
    (hvalue : ∀ g, G g → ∃ g', G g' ∧ ∀ data, dcafsReadValue db g node data
      = (do return (g', some (← inBounds (data.store text.chars), text.length))))
    (hg : G g) (hleaf : IsLeafAt db g node)
    (hsmall : ∀ n, dbNodeGetSize db g node = .ok n → n ≤ dcafsMaxStrLen) :
    SizeIsContents db w g node ↔ dbNodeGetSize db g node = .ok text.length := by
  by_cases hfits : text.length ≤ dcafsMaxStrLen
  · have hcontents : HasContents db node text.length G := by
      refine ⟨hfits, fun g hg data => ?_⟩
      obtain ⟨g', hg', hread⟩ := hvalue g hg
      obtain ⟨b, hb, -⟩ := data.store_of_le hfits
      refine ⟨g', b, ?_, hg'⟩
      rw [hread, hb]
      rfl
    exact hcontents.reported_iff hg hleaf hsmall
  · have hbad : ¬ SizeIsContents db w g node := by
      refine not_sizeIsContents fun data r hr => ?_
      obtain ⟨g', -, hread⟩ := hvalue g hg
      have hnone : data.store text.chars = none := dif_neg hfits
      rw [hread, hnone] at hr
      cases hr
    exact ⟨fun h => absurd h hbad, fun hsize => absurd (hsmall _ hsize) hfits⟩

/-- **A number has its size where that is the length of its text.** -/
theorem int_sizeIsContents_iff (htype : dbNodeGetType db g node = .ok .int)
    (hsmall : ∀ n, dbNodeGetSize db g node = .ok n → n ≤ dcafsMaxStrLen) :
    SizeIsContents db w g node ↔ ∃ r, dbNodeGetIntValue db g node = .ok r ∧
      dbNodeGetSize db g node = .ok (fmtS32Dec r.2).length := by
  cases hval : dbNodeGetIntValue db g node with
  | error t =>
    have hbad : ¬ SizeIsContents db w g node := by
      refine not_sizeIsContents fun data r hr => ?_
      simp only [dcafsReadValue, htype, ok_bind, hval] at hr
      cases hr
    simp [hbad]
  | ok r =>
    obtain ⟨g', v⟩ := r
    rw [stored_sizeIsContents_iff (fmtS32Dec v)
      (G := fun g => ∃ g', dbNodeGetIntValue db g node = .ok (g', v)) ?_ ⟨g', hval⟩
      ⟨.int, htype, by simp, by simp⟩ hsmall]
    · simp
    · rintro g ⟨g', hread⟩
      obtain ⟨type, hok, hassert⟩ := bind_eq_ok.mp hread
      obtain ⟨⟨⟩, hint, -⟩ := bind_eq_ok.mp hassert
      obtain rfl : type = .int := by simpa using hint
      refine ⟨g', intValue_again hread, fun data => ?_⟩
      simp only [dcafsReadValue, hok, ok_bind, hread]

theorem float_sizeIsContents_iff (htype : dbNodeGetType db g node = .ok .float)
    (hsmall : ∀ n, dbNodeGetSize db g node = .ok n → n ≤ dcafsMaxStrLen) :
    SizeIsContents db w g node ↔ ∃ v, dbNodeGetFloatValue db g node = .ok v ∧
      dbNodeGetSize db g node = .ok (db.env.fmtFloat v dcafsFloatPrecision).length := by
  cases hval : dbNodeGetFloatValue db g node with
  | error t =>
    have hbad : ¬ SizeIsContents db w g node := by
      refine not_sizeIsContents fun data r hr => ?_
      simp only [dcafsReadValue, htype, ok_bind, hval, error_bind] at hr
      cases hr
    simp [hbad]
  | ok v =>
    rw [stored_sizeIsContents_iff (db.env.fmtFloat v dcafsFloatPrecision) (G := (g = ·)) ?_
      rfl ⟨.float, htype, by simp, by simp⟩ hsmall]
    · simp
    · rintro _ rfl
      refine ⟨g, rfl, fun data => ?_⟩
      simp only [dcafsReadValue, htype, ok_bind, hval]

/-- A text has its size where the getter returns it. -/
theorem str_sizeIsContents_iff (htype : dbNodeGetType db g node = .ok .str)
    (hsmall : ∀ n, dbNodeGetSize db g node = .ok n → n ≤ dcafsMaxStrLen)
    (hfits : size ≤ dcafsMaxStrLen)
    (hget : ∀ data : Buf dcafsMaxStrLen,
      ∃ b, dbNodeGetStrValue db g node data dcafsMaxStrLen = .ok (b, size)) :
    SizeIsContents db w g node ↔ dbNodeGetSize db g node = .ok size := by
  have hcontents : HasContents db node size (g = ·) := by
    refine ⟨hfits, ?_⟩
    rintro _ rfl data
    obtain ⟨b, hb⟩ := hget data
    refine ⟨g, b, ?_, rfl⟩
    simp only [dcafsReadValue, htype, ok_bind, hb, pure_eq_ok]
  exact hcontents.reported_iff rfl ⟨.str, htype, by simp, by simp⟩ hsmall

theorem str_not_sizeIsContents (htype : dbNodeGetType db g node = .ok .str)
    (hget : ∀ (data : Buf dcafsMaxStrLen) r,
      dbNodeGetStrValue db g node data dcafsMaxStrLen ≠ .ok r) : ¬ SizeIsContents db w g node := by
  refine not_sizeIsContents fun data r hr => ?_
  simp only [dcafsReadValue, htype, ok_bind] at hr
  obtain ⟨r', hr', -⟩ := bind_eq_ok.mp hr
  exact hget data r' hr'

theorem size_of_str (htype : dbNodeGetType db g node = .ok .str)
    (hsmall : ∀ n, dbNodeGetSize db g node = .ok n → n ≤ dcafsMaxStrLen)
    (hfits : size ≤ dcafsMaxStrLen)
    (hget : (∀ data : Buf dcafsMaxStrLen,
        ∃ b, dbNodeGetStrValue db g node data dcafsMaxStrLen = .ok (b, size)) ∨
      ∀ (data : Buf dcafsMaxStrLen) r, dbNodeGetStrValue db g node data dcafsMaxStrLen ≠ .ok r)
    (h : SizeIsContents db w g node) : dbNodeGetSize db g node = .ok size := by
  rcases hget with hget | htrap
  · exact (str_sizeIsContents_iff htype hsmall hfits hget).mp h
  · exact absurd h (str_not_sizeIsContents htype htrap)

/-- A text that `strcpy` puts into the array. -/
theorem strcpy_sizeIsContents_iff (text : CString) (htype : dbNodeGetType db g node = .ok .str)
    (hsmall : ∀ n, dbNodeGetSize db g node = .ok n → n ≤ dcafsMaxStrLen)
    (hget : ∀ data : Buf dcafsMaxStrLen, dbNodeGetStrValue db g node data dcafsMaxStrLen
      = (·, text.length) <$> inBounds (data.strcpy text)) :
    SizeIsContents db w g node ↔
      text.length < dcafsMaxStrLen ∧ dbNodeGetSize db g node = .ok text.length := by
  by_cases hlt : text.length < dcafsMaxStrLen
  · rw [str_sizeIsContents_iff htype hsmall (Nat.le_of_lt hlt) ?_]
    · simp [hlt]
    · intro data
      obtain ⟨b, hb, -⟩ := data.strcpy_of_lt hlt
      rw [hget, hb]
      exact ⟨b, rfl⟩
  · have hbad : ¬ SizeIsContents db w g node := by
      refine str_not_sizeIsContents htype fun data r hr => ?_
      rw [hget, Buf.strcpy_eq_none _ (Nat.le_of_not_lt hlt)] at hr
      cases hr
    simp [hbad, hlt]

/-- An array that is taken as it is has no contents of its own. -/
theorem not_sizeIsContents_of_junk (htype : dbNodeGetType db g node = .ok .str)
    (hget : ∀ data : Buf dcafsMaxStrLen, dbNodeGetStrValue db g node data dcafsMaxStrLen
      = (do return (data, ← inBounds data.strlen))) : ¬ SizeIsContents db w g node := by
  let one : Buf dcafsMaxStrLen := ⟨'a' :: List.replicate 127 nul, by simp [dcafsMaxStrLen]⟩
  have hread {data : Buf dcafsMaxStrLen} {n : Nat} (hn : data.strlen = some n) :
      dcafsReadValue db g node data = .ok (g, some (data, n)) := by
    simp only [dcafsReadValue, htype, ok_bind, hget, hn, inBounds, pure_eq_ok]
  have hpos : 0 ≤ (0#w.bits).toInt := start_nonneg
  have hstart : (0#w.bits).toNat = 0 := by simp
  have hempty : dcafsReadValue db g node (Buf.zero _) = .ok (g, some (Buf.zero _, 0)) :=
    hread (by decide +kernel)
  have hone : dcafsReadValue db g node one = .ok (g, some (one, 1)) := hread (by decide +kernel)
  rintro ⟨n, hall, -⟩
  have hnone : ReadsAll db (⟨g, ⟨0#w.bits, node⟩⟩ : FileState w) 0 :=
    readsAll_end hempty (by decide) hpos (Nat.zero_le _)
  have hsome : ReadsAll db (⟨g, ⟨0#w.bits, node⟩⟩ : FileState w) 1 := by
    have hword : (BitVec.ofNat w.bits 1).toNat = 1 := toNat_size (by decide)
    obtain ⟨s', dest, hcall, hnode', hg', hpos', hlen, hmoved⟩ :=
      call_length (s := ⟨g, ⟨0#w.bits, node⟩⟩) hone (by decide) hpos (BitVec.ofNat w.bits 1)
    have hread' : dcafsReadValue db s'.g s'.filp.node (Buf.zero _) = .ok (g, some (Buf.zero _, 0)) := by
      rw [hg', hnode']
      exact hempty
    have hlen' : dest.length = 1 := by
      rw [hlen, hword]
      show min 1 (1 - (0#w.bits).toNat) = 1
      omega
    have hrest := readsAll_end hread' (by decide) hpos' (Nat.zero_le _)
    have hall := ReadsAll.more hcall (by simp [hlen']) hrest
    simpa [hlen'] using hall
  have hzero : 0 = n := (hall 0).mp hnone
  have hone : 1 = n := (hall 1).mp hsome
  omega

/-! ## Leaves of size 4 -/

/-- **The numbers whose texts have four characters.** -/
theorem length_eq_four_iff (v : Int) : (fmtS32Dec v).length = 4 ↔ FourChars v := by
  have hfour := length_fmtS32Dec_le_iff (k := 3) (by decide) v
  have hthree := length_fmtS32Dec_le_iff (k := 2) (by decide) v
  unfold FourChars
  omega

theorem small_of_eq {n : Nat} (hn : n ≤ dcafsMaxStrLen) (hsize : dbNodeGetSize db g node = .ok n) :
    ∀ m, dbNodeGetSize db g node = .ok m → m ≤ dcafsMaxStrLen := by
  intro m hm
  obtain rfl := Except.ok.inj (hsize.symm.trans hm)
  exact hn

theorem int_four_iff (htype : dbNodeGetType db g node = .ok .int)
    (hsize : dbNodeGetSize db g node = .ok 4) :
    SizeIsContents db w g node ↔ ∃ r, dbNodeGetIntValue db g node = .ok r ∧ FourChars r.2 := by
  rw [int_sizeIsContents_iff htype (small_of_eq (by decide) hsize), hsize]
  simp only [Except.ok.injEq, eq_comm (a := 4), length_eq_four_iff]

theorem float_four_iff (htype : dbNodeGetType db g node = .ok .float)
    (hsize : dbNodeGetSize db g node = .ok 4) :
    SizeIsContents db w g node ↔ ∃ v, dbNodeGetFloatValue db g node = .ok v ∧
      (db.env.fmtFloat v dcafsFloatPrecision).length = 4 := by
  rw [float_sizeIsContents_iff htype (small_of_eq (by decide) hsize), hsize]
  simp only [Except.ok.injEq, eq_comm (a := 4)]

/-- A static number. -/
theorem fl_size {flIdx subIdx : UInt8} {isRoot : Bool} {type : DbNodeType}
    (htype : dbNodeGetType db g (.fl flIdx subIdx isRoot) = .ok type)
    (hnumber : type = .int ∨ type = .float) :
    dbNodeGetSize db g (.fl flIdx subIdx isRoot) = .ok 4 := by
  rcases fl_type_cases htype with ⟨-, rfl⟩ | ⟨rfl, e, s, he, hs, rfl⟩
  · simp at hnumber
  · rcases hnumber with h | h
    · simp [dbNodeGetSize, flNodeGetsize, flEntry_eq he, staticEntry_eq hs, h]
    · simp [dbNodeGetSize, flNodeGetsize, flEntry_eq he, staticEntry_eq hs, h]

/-! ## Texts -/

section Texts

variable {cfg : Config} {env : Env}

/-- A text of `board.c` has its size where it is shorter than the array. -/
theorem board_sizeIsContents_iff {text : CString} {flIdx subIdx : UInt8}
    (htype : dbNodeGetType db g (.fl flIdx subIdx false) = .ok .str)
    (hget : ∀ data : Buf dcafsMaxStrLen, dbNodeGetStrValue db g (.fl flIdx subIdx false) data
      dcafsMaxStrLen = copyText text data dcafsMaxStrLen)
    (hsize : dbNodeGetSize db g (.fl flIdx subIdx false)
      = (·.2) <$> copyText text (Buf.zero dcafsMaxStrLen) dcafsMaxStrLen) :
    SizeIsContents db w g (.fl flIdx subIdx false) ↔ text.length < dcafsMaxStrLen := by
  by_cases hlt : text.length < dcafsMaxStrLen
  · have hread (data : Buf dcafsMaxStrLen) : ∃ b, dbNodeGetStrValue db g (.fl flIdx subIdx false)
        data dcafsMaxStrLen = .ok (b, text.length) := by
      obtain ⟨b, hb, -⟩ := copyText_of_lt data hlt (Nat.le_refl _)
      exact ⟨b, (hget data).trans hb⟩
    have hfour : dbNodeGetSize db g (.fl flIdx subIdx false) = .ok text.length := by
      obtain ⟨b, hb, -⟩ := copyText_of_lt (Buf.zero dcafsMaxStrLen) hlt (Nat.le_refl _)
      rw [hsize, hb, map_ok]
    rw [str_sizeIsContents_iff htype (small_of_eq (Nat.le_of_lt hlt) hfour) (Nat.le_of_lt hlt) hread]
    simp [hfour, hlt]
  · -- nothing in the array is a terminator
    have hbad : ¬ SizeIsContents db w g (.fl flIdx subIdx false) := by
      refine str_not_sizeIsContents htype fun data r hr => ?_
      rw [hget, copyText] at hr
      obtain ⟨b, hb, hr⟩ := bind_eq_ok.mp hr
      obtain ⟨n, hn, -⟩ := bind_eq_ok.mp hr
      have hnul := (Buf.shows_of_strlen (inBounds_eq_ok.mp hn)).nul_mem
      have hchars := (Buf.store_eq_some (inBounds_eq_ok.mp hb)).2
      rw [Buf.length_strncpyBytes, List.drop_eq_nil_of_le (Nat.le_of_eq data.size),
        List.append_nil] at hchars
      rw [hchars] at hnul
      exact b.nul_not_mem_strncpy (Nat.le_of_not_lt hlt) hnul
    exact ⟨fun h => absurd h hbad, fun h => absurd h hlt⟩

theorem fl_sizeFits {flIdx subIdx : UInt8} {isRoot : Bool}
    (hleaf : IsLeafAt (.ofEnv cfg env) g (.fl flIdx subIdx isRoot)) :
    SizeIsContents (.ofEnv cfg env) w g (.fl flIdx subIdx isRoot)
      ↔ SizeFits (.ofEnv cfg env) g (.fl flIdx subIdx isRoot) := by
  obtain ⟨type, htype, hnull, hinner⟩ := hleaf
  cases type with
  | null => exact absurd rfl hnull
  | inner => exact absurd rfl hinner
  | int =>
    rw [int_four_iff htype (fl_size htype (Or.inl rfl))]
    simp only [SizeFits, htype]
  | float =>
    rw [float_four_iff htype (fl_size htype (Or.inr rfl))]
    simp only [SizeFits, htype]
  | str =>
    rcases fl_type_cases htype with ⟨-, htype'⟩ | ⟨rfl, e, s, he, hs, hstr⟩
    · cases htype'
    · have hsize {f} (hf : s.getValueFn = .str f) :
          dbNodeGetSize (.ofEnv cfg env) g (.fl flIdx subIdx false)
            = (·.2) <$> f env dcafsMaxStrLen (Buf.zero dcafsMaxStrLen) dcafsMaxStrLen := by
        simp only [dbNodeGetSize, flNodeGetsize, flNodeGetstrValue, flEntry_eq he,
          staticEntry_eq hs, ← hstr, hf, ok_bind]
        rfl
      obtain ⟨rfl, ⟨rfl, hf⟩ | ⟨rfl, hf⟩⟩ := text_ofEnv he hs hstr.symm
      · rw [board_sizeIsContents_iff htype (fun data => static_str he hs hstr.symm hf g data _)
          (hsize hf)]
        simp only [SizeFits, htype]
        simp [boardText, Db.ofEnv]
      · rw [board_sizeIsContents_iff htype (fun data => static_str he hs hstr.symm hf g data _)
          (hsize hf)]
        simp only [SizeFits, htype]
        simp [boardText, Db.ofEnv]

theorem ps_sizeFits {pid : Nat} {level : PsLevel} (hleaf : IsLeafAt db g (.ps pid level)) :
    SizeIsContents db w g (.ps pid level) ↔ SizeFits db g (.ps pid level) := by
  obtain ⟨type, htype, hnull, hinner⟩ := hleaf
  obtain ⟨rfl, hfield⟩ := ps_type hinner htype
  have hsize : dbNodeGetSize db g (.ps pid .field) = .ok 4 := rfl
  by_cases hstate : g.fieldCount = 1
  · obtain rfl : type = .str := hfield.trans (if_pos hstate)
    have hbad : ¬ SizeIsContents db w g (.ps pid .field) := by
      intro h
      have hstateSize := size_of_str htype (small_of_eq (by decide) hsize)
        (by decide : 88 ≤ dcafsMaxStrLen) ?_ h
      · rw [hsize] at hstateSize
        cases hstateSize
      · simp only [strValue_ps htype, psNodeGetstrValue, if_pos hstate]
        cases hassert : assert (decide (pid ≤ db.env.kernelPidLast)) with
        | error t => simp
        | ok u =>
          cases hlive : liveThread db.env pid with
          | error t => simp
          | ok p =>
            refine Or.inl fun data => ?_
            obtain ⟨b, hb, -⟩ := data.strncpyN_of_le (s := .lit (stateNames p.status))
              (by decide : dbNodeNameMax ≤ dcafsMaxStrLen)
            exact ⟨b, by simp [hb, inBounds]⟩
    simp only [SizeFits, htype, hbad]
  · obtain rfl : type = .int := hfield.trans (if_neg hstate)
    rw [int_four_iff htype hsize]
    simp only [SizeFits, htype]

/-- **The class of a device has its size only where it is empty.** -/
theorem saul_sizeFits {dev : Option Nat} {level : SaulLevel}
    (hleaf : IsLeafAt db g (.saul dev level)) :
    SizeIsContents db w g (.saul dev level) ↔ SizeFits db g (.saul dev level) := by
  obtain ⟨type, htype, hnull, hinner⟩ := hleaf
  obtain rfl : level = .field := by
    cases level with
    | root | device => exact absurd (Except.ok.inj htype).symm hinner
    | field => rfl
  obtain rfl : DbNodeType.str = type := Except.ok.inj htype
  have hsize : dbNodeGetSize db g (.saul dev .field) = .ok 0 := rfl
  have hsmall := small_of_eq (by decide) hsize
  have hget (data : Buf dcafsMaxStrLen) := strValue_saul htype data dcafsMaxStrLen
  simp only [SizeFits, htype]
  by_cases hzero : g.saulFieldCount = 0
  · cases hr : db.env.saulAt dev with
    | none =>
      have hbad : ¬ SizeIsContents db w g (.saul dev .field) := by
        refine str_not_sizeIsContents htype fun data r hread => ?_
        rw [hget] at hread
        cases dev with
        | none => cases hread
        | some i =>
          have hi : db.env.saulReg[i]? = none := hr
          simp [saulNodeGetstrValue, hzero, Env.saul, hi] at hread
      simp [hbad]
    | some r =>
      obtain ⟨i, rfl, hi⟩ := Option.bind_eq_some_iff.mp hr
      rw [strcpy_sizeIsContents_iff (db.env.saulClassToStr r.type) htype hsmall, hsize]
      · simp only [hzero, true_and, Option.some.injEq, exists_eq_left', Except.ok.injEq]
        constructor
        · rintro ⟨-, hlen⟩
          exact hlen.symm
        · intro hlen
          rw [hlen]
          exact ⟨by decide, rfl⟩
      · intro data
        rw [hget]
        simp only [saulNodeGetstrValue, Option.isSome_some, assert_true, ok_bind, if_pos hzero,
          Env.saul, hi]
        cases inBounds (data.strcpy (db.env.saulClassToStr r.type)) <;> rfl
  · have hbad : ¬ SizeIsContents db w g (.saul dev .field) := by
      intro h
      have hjunk := size_of_str htype hsmall (by decide : 88 ≤ dcafsMaxStrLen) ?_ h
      · rw [hsize] at hjunk
        cases hjunk
      · simp only [hget, saulNodeGetstrValue, if_neg hzero]
        cases dev with
        | none => exact Or.inr fun data r hr => by cases hr
        | some i => exact Or.inl fun data => ⟨data, rfl⟩
    simp [hbad, hzero]

end Texts

/-! ## Interfaces -/

section Netif

variable {iface : Option Nat} {level : NetifLevel}

theorem iface_trap (h : db.env.ifaceAt iface = none) (i : Netif) : db.env.iface iface ≠ .ok i := by
  rw [Ne, iface_eq_ok, h]
  exact fun hnone => by cases hnone

/-- The length of the text of an address is returned, and it has room. -/
theorem netifGetIpv6Addr_length {i : Netif} (hi : db.env.ifaceAt iface = some i) {n : Nat}
    (hn : ipv6AddrMaxStrLen ≤ n) (addr : Buf n) :
    ∃ b, netifGetIpv6Addr db.env iface addr = .ok (b, (i.addrText db.env).length) := by
  have hfits := i.addrText_fits db.env
  unfold netifGetIpv6Addr
  rw [(iface_eq hi).1, ok_bind]
  unfold Netif.addrText at hfits ⊢
  cases ha : i.ipv6Addr with
  | some a =>
    rw [ha] at hfits
    obtain ⟨b, hb, -⟩ := addr.strcpy_of_lt (Nat.lt_of_lt_of_le hfits hn)
    exact ⟨b, by simp [hb, inBounds]⟩
  | none =>
    have hle : (List.replicate ipv6AddrMaxStrLen nul).length ≤ n := by
      rwa [List.length_replicate]
    obtain ⟨b, hb, -⟩ := addr.store_of_le hle
    exact ⟨b, by simp [hb, inBounds]; decide⟩

theorem netif_size_iff (hlevel : level ≠ .root ∧ level ≠ .iface) (n : Nat) :
    netifNodeGetsize db.env g iface level = .ok n ↔ NetifSized db.env g iface level n := by
  have haddr : (do return (← netifGetIpv6Addr db.env iface (Buf.zero ipv6AddrMaxStrLen)).2)
      = Except.ok n ↔ ∃ i, db.env.ifaceAt iface = some i ∧ n = (i.addrText db.env).length := by
    cases hi : db.env.ifaceAt iface with
    | none =>
      constructor
      · intro h
        obtain ⟨r, hr, -⟩ := bind_eq_ok.mp h
        obtain ⟨i, hiface, -⟩ := bind_eq_ok.mp hr
        exact absurd hiface (iface_trap hi i)
      · rintro ⟨i, hi', -⟩
        cases hi'
    | some i =>
      obtain ⟨b, hb⟩ := netifGetIpv6Addr_length hi (Nat.le_refl _) (Buf.zero ipv6AddrMaxStrLen)
      simp [hb, eq_comm]
  unfold netifNodeGetsize NetifSized
  rw [if_neg hlevel.1, if_neg hlevel.2]
  by_cases hlink : level = .field ∧ g.netifFieldCount = 2
  · rw [if_pos hlink, if_pos (Or.inl hlink)]
    simp [eq_comm]
  · rw [if_neg hlink]
    by_cases hqos : level = .qos ∧ g.netifSubFieldCount < qosCount
    · rw [if_pos hqos, if_pos (Or.inr hqos)]
      simp [eq_comm]
    · rw [if_neg hqos, if_neg (not_or.mpr ⟨hlink, hqos⟩)]
      exact haddr

theorem NetifSized.lt {n : Nat} (h : NetifSized db.env g iface level n) : n < ipv6AddrMaxStrLen := by
  unfold NetifSized at h
  split_ifs at h
  · rw [h]
    decide
  · obtain ⟨i, -, rfl⟩ := h
    exact i.addrText_fits db.env

/-! ### The texts of an interface -/

section Getters

variable (htype : dbNodeGetType db g node = .ok .str)
  (hsmall : ∀ n, dbNodeGetSize db g node = .ok n → n ≤ dcafsMaxStrLen)
include htype hsmall

theorem address_sizeIsContents_iff
    (hget : ∀ data : Buf dcafsMaxStrLen, dbNodeGetStrValue db g node data dcafsMaxStrLen
      = netifGetIpv6Addr db.env iface data) :
    SizeIsContents db w g node ↔ ∃ i, db.env.ifaceAt iface = some i ∧
      dbNodeGetSize db g node = .ok (i.addrText db.env).length := by
  cases hi : db.env.ifaceAt iface with
  | none =>
    have hbad : ¬ SizeIsContents db w g node := by
      refine str_not_sizeIsContents htype fun data r hr => ?_
      rw [hget] at hr
      obtain ⟨i, hiface, -⟩ := bind_eq_ok.mp hr
      exact iface_trap hi i hiface
    simp [hbad]
  | some i =>
    have hfits : (i.addrText db.env).length ≤ dcafsMaxStrLen :=
      Nat.le_trans (Nat.le_of_lt (i.addrText_fits db.env)) (by decide)
    rw [str_sizeIsContents_iff htype hsmall hfits ?_]
    · simp
    · intro data
      rw [hget]
      exact netifGetIpv6Addr_length hi (by decide) data

theorem link_sizeIsContents_iff
    (hget : ∀ data : Buf dcafsMaxStrLen, dbNodeGetStrValue db g node data dcafsMaxStrLen
      = netifGetLinkType db.env iface data) :
    SizeIsContents db w g node ↔ ∃ i, db.env.ifaceAt iface = some i ∧
      dbNodeGetSize db g node = .ok i.linkText.length := by
  cases hi : db.env.ifaceAt iface with
  | none =>
    have hbad : ¬ SizeIsContents db w g node := by
      refine str_not_sizeIsContents htype fun data r hr => ?_
      rw [hget] at hr
      obtain ⟨i, hiface, -⟩ := bind_eq_ok.mp hr
      exact iface_trap hi i hiface
    simp [hbad]
  | some i =>
    have hfits : i.linkText.length < dcafsMaxStrLen := by
      unfold Netif.linkText
      split_ifs <;> decide
    rw [strcpy_sizeIsContents_iff i.linkText htype hsmall ?_]
    · simp [hfits]
    · intro data
      rw [hget, netifGetLinkType, (iface_eq hi).1, ok_bind]
      change (do return (← inBounds (data.strcpy i.linkText), i.linkText.length)) = _
      cases inBounds (data.strcpy i.linkText) <;> rfl

/-- Without an entry for the neighbour the array is taken as it is. -/
theorem ip_sizeIsContents_iff
    (hget : ∀ data : Buf dcafsMaxStrLen, dbNodeGetStrValue db g node data dcafsMaxStrLen
      = (do let value ← netifGetIp db.env g data; return (value, ← inBounds value.strlen))) :
    SizeIsContents db w g node ↔ ∃ e, entryAt g.neighbours g.numNeighbours = some e ∧
      dbNodeGetSize db g node = .ok (db.env.ipv6AddrToStr e.addr).length := by
  cases he : entryAt g.neighbours g.numNeighbours with
  | none =>
    have hbad : ¬ SizeIsContents db w g node := by
      rcases readIp_none db.env he with hr | hr
      · refine not_sizeIsContents_of_junk htype fun data => ?_
        rw [hget, netifGetIp, hr]
        rfl
      · refine str_not_sizeIsContents htype fun data r hread => ?_
        rw [hget, netifGetIp, hr] at hread
        cases hread
    simp [hbad]
  | some e =>
    have hfits : (db.env.ipv6AddrToStr e.addr).length < dcafsMaxStrLen :=
      Nat.lt_trans (db.env.ipv6AddrToStr_fits e.addr) (by decide)
    rw [strcpy_sizeIsContents_iff (db.env.ipv6AddrToStr e.addr) htype hsmall ?_]
    · simp [hfits]
    · intro data
      rw [hget, netifGetIp, readIp_eq db.env he]
      cases hb : data.strcpy (db.env.ipv6AddrToStr e.addr) with
      | none => rfl
      | some b =>
        have hlen := (Buf.strcpy_eq_some hb).strlen_eq
        simp only [inBounds, map_ok, Except.map, ok_bind, hlen, pure_eq_ok]

end Getters

theorem small_netif (hsize : ∀ n, dbNodeGetSize db g (.netif iface level) = .ok n
      ↔ NetifSized db.env g iface level n) :
    ∀ n, dbNodeGetSize db g (.netif iface level) = .ok n → n ≤ dcafsMaxStrLen := by
  intro n hn
  exact Nat.le_trans (Nat.le_of_lt ((hsize n).mp hn).lt) (by decide)

theorem netif_str_sizeFits (htype : dbNodeGetType db g (.netif iface level) = .ok .str)
    (hsize : ∀ n, dbNodeGetSize db g (.netif iface level) = .ok n
      ↔ NetifSized db.env g iface level n) :
    SizeIsContents db w g (.netif iface level) ↔ iface.isSome ∧
      ∃ text, strText db g (.netif iface level) = some text ∧
        NetifSized db.env g iface level text.length := by
  have hsmall := small_netif hsize
  have hget (data : Buf dcafsMaxStrLen) := strValue_netif htype data dcafsMaxStrLen
  cases iface with
  | none =>
    have hbad : ¬ SizeIsContents db w g (.netif none level) := by
      refine str_not_sizeIsContents htype fun data r hr => ?_
      rw [hget] at hr
      cases hr
    simp [hbad]
  | some k =>
    simp only [netifNodeGetstrValue, Option.isSome_some, assert_true, ok_bind] at hget
    by_cases h₁ : g.netifFieldCount = 1
    · simp only [if_pos h₁] at hget
      rw [address_sizeIsContents_iff htype hsmall hget]
      simp [strText, h₁, hsize]
    · by_cases h₂ : g.netifFieldCount = 2
      · simp only [if_neg h₁, if_pos h₂] at hget
        rw [link_sizeIsContents_iff htype hsmall hget]
        simp [strText, h₂, hsize]
      · by_cases hs : g.netifSubFieldCount = 1
        · simp only [if_neg h₁, if_neg h₂, if_pos hs] at hget
          rw [ip_sizeIsContents_iff htype hsmall hget]
          simp [strText, h₁, h₂, hs, hsize]
        · simp only [if_neg h₁, if_neg h₂, if_neg hs] at hget
          have hbad : ¬ SizeIsContents db w g (.netif (some k) level) := by
            intro h
            have hjunk := size_of_str htype hsmall (by decide : 88 ≤ dcafsMaxStrLen)
              (Or.inl fun data => ⟨data, hget data⟩) h
            exact absurd ((hsize 88).mp hjunk).lt (by decide)
          simp [hbad, strText, h₁, h₂, hs]

theorem netif_sizeFits (hleaf : IsLeafAt db g (.netif iface level)) :
    SizeIsContents db w g (.netif iface level) ↔ SizeFits db g (.netif iface level) := by
  obtain ⟨type, htype, hnull, hinner⟩ := hleaf
  have hlevel : level ≠ .root ∧ level ≠ .iface := by
    constructor
    · rintro rfl
      exact hinner (Except.ok.inj htype).symm
    · rintro rfl
      exact hinner (Except.ok.inj htype).symm
  have hsize (n : Nat) : dbNodeGetSize db g (.netif iface level) = .ok n
      ↔ NetifSized db.env g iface level n := netif_size_iff hlevel n
  have hsmall := small_netif hsize
  cases type with
  | null => exact absurd rfl hnull
  | inner => exact absurd rfl hinner
  | int =>
    rw [int_sizeIsContents_iff htype hsmall]
    simp only [SizeFits, htype, hsize]
  | float =>
    rw [float_sizeIsContents_iff htype hsmall]
    simp only [SizeFits, htype, hsize]
  | str =>
    rw [netif_str_sizeFits htype hsize]
    simp only [SizeFits, htype]

end Netif

/-! ## Files -/

variable (db) in
/-- The size of every file that a lookup finds in a reachable state is that of its contents. -/
def SizesAreContents (w : FileWidth) : Prop :=
  ∀ g, Reachable db.dbIndex g →
    ∀ (fuel : Nat) (path : CString) (child : DbNode) (nameBuf : NameBuf) (found : Found),
      dbFindNodeByPath db fuel g path child nameBuf = .ok found → found.code = 0 →
      IsLeafAt db found.g found.node → SizeIsContents db w found.g found.node

/-- The file `/runtime/heap` always holds the one byte `0`, and its size is 4. -/
theorem not_sizesAreContents : ¬ SizesAreContents smallDb ⟨32, by decide⟩ := by
  intro h
  have hsize := h {} ⟨smallEnv, .boot smallEnv, .refl _, rfl⟩ 8 (.lit "/runtime/heap") .null
    (Buf.zero _) ⟨{}, 0, .fl 1 4 false⟩ (by decide) rfl ⟨.int, rfl, by simp, by simp⟩
  rw [int_four_iff rfl rfl] at hsize
  obtain ⟨r, hr, hfour⟩ := hsize
  obtain rfl := Except.ok.inj hr
  revert hfour
  unfold FourChars
  decide

/--
**The size of a file is that of its contents exactly when the value happens to have it.** A number
has to have four characters, the class of a device none, and the state of a process never fits.
-/
theorem sizeIsContents_iff (cfg : Config) (env : Env) (w : FileWidth) (g : Globals) (node : DbNode)
    (hleaf : IsLeafAt (.ofEnv cfg env) g node) :
    SizeIsContents (.ofEnv cfg env) w g node ↔ SizeFits (.ofEnv cfg env) g node := by
  cases node with
  | null =>
    obtain ⟨type, htype, hnull, -⟩ := hleaf
    exact absurd (Except.ok.inj htype).symm hnull
  | root idx =>
    obtain ⟨type, htype, -, hinner⟩ := hleaf
    exact absurd (Except.ok.inj htype).symm hinner
  | fl flIdx subIdx isRoot => exact fl_sizeFits hleaf
  | ps pid level => exact ps_sizeFits hleaf
  | saul dev level => exact saul_sizeFits hleaf
  | netif iface level => exact netif_sizeFits hleaf

/-- The name of the small board. -/
theorem sizeIsContents_board_name :
    SizeIsContents smallDb ⟨32, by decide⟩ {} (.fl 0 0 false)
      ↔ SizeFits smallDb {} (.fl 0 0 false) :=
  sizeIsContents_iff {} smallEnv ⟨32, by decide⟩ {} (.fl 0 0 false) ⟨.str, rfl, by simp, by simp⟩

end Dca
