import Dca.Db.Calls
import Dca.Db.Static

/-!
# The text of a value

`db_node_value_to_str` writes the text of a value and its terminator and returns their length. For
numbers this is always so. The four getters of texts were written apart from each other: that of
`board.c` relies on a terminator at the end of the array when the text does not fit, that of `ps.c`
returns 88 whatever it has copied, and those of `saul_devices.c` and `netif.c` do not look at the
length of the array.
-/

namespace Dca

open CLib

variable (db : Db)

/-! ## Texts -/

/-- The two texts of `_board_static_entries`. -/
def boardText (env : Env) (flIdx subIdx : UInt8) : Option CString :=
  if flIdx = 0 ∧ subIdx = 0 then some env.board.riotBoard
  else if flIdx = 0 ∧ subIdx = 1 then some env.board.riotMcu
  else none

/-- The text of the address of an interface. -/
def Netif.addrText (env : Env) (n : Netif) : CString :=
  match n.ipv6Addr with
  | some a => env.ipv6AddrToStr a
  | none => .lit ""

theorem Netif.addrText_fits (env : Env) (n : Netif) :
    (n.addrText env).length < ipv6AddrMaxStrLen := by
  unfold Netif.addrText
  split
  · exact env.ipv6AddrToStr_fits _
  · decide

/-- The text of the link type. -/
def Netif.linkText (n : Netif) : CString := .lit (if n.isWired = 1 then "wired" else "wireless")

/-- The interface that a node is about. -/
def Env.ifaceAt (env : Env) (iface : Option Nat) : Option Netif := iface.bind (env.ifaces[·]?)

/-- The device that a node is about. -/
def Env.saulAt (env : Env) (dev : Option Nat) : Option SaulReg := dev.bind (env.saulReg[·]?)

/-- The text of a leaf of type `str`, if there is one. -/
def strText (g : Globals) : DbNode → Option CString
  | .fl flIdx subIdx _ => boardText db.env flIdx subIdx
  | .ps pid _ =>
    if g.fieldCount = 1 then
      (db.env.schedThreads pid).map fun p => .lit (stateNames p.status)
    else none
  | .saul dev _ =>
    if g.saulFieldCount = 0 then
      (db.env.saulAt dev).map fun r => db.env.saulClassToStr r.type
    else none
  | .netif iface _ =>
    if g.netifFieldCount = 1 then (db.env.ifaceAt iface).map (·.addrText db.env)
    else if g.netifFieldCount = 2 then (db.env.ifaceAt iface).map (·.linkText)
    else if g.netifSubFieldCount = 1 then
      (entryAt g.neighbours g.numNeighbours).map fun e => db.env.ipv6AddrToStr e.addr
    else none
  | .null | .root _ => none

/-- The text of the value of a leaf of type `int` or `str`. -/
def leafText (g : Globals) (node : DbNode) : Option CString :=
  match dbNodeGetType db g node with
  | .ok .int => ((·.2) <$> dbNodeGetIntValue db g node).toOption.map fmtS32Dec
  | .ok .str => strText db g node
  | _ => none

/-- What an array of `n` bytes may show for a text: the text, or a part of it or `---` otherwise. -/
def ShownFor (n : Nat) (text shown : CString) : Prop :=
  if text.length < n then shown = text else shown.chars <+: text.chars ∨ shown = .lit "---"

/-- The bytes up to the returned length are what is shown for the text, and its terminator. -/
def TextWellFormed {n : Nat} (g : Globals) (node : DbNode) (buf : Buf n) : Prop :=
  ∃ text shown g' buf', leafText db g node = some text ∧
    dbNodeValueToStr db g node buf = .ok (g', buf', (shown.length : Int) + 1) ∧
    buf'.Shows shown ∧ ShownFor n text shown

/-- When the text of a leaf fits. -/
def TextFits {n : Nat} (g : Globals) (buf : Buf n) : DbNode → Prop
  | .null | .root _ => False
  | .fl flIdx subIdx _ =>
    ∀ text, boardText db.env flIdx subIdx = some text →
      text.length + 1 < n ∨ buf.chars[n - 1]? = some nul
  | .ps pid _ =>
    g.fieldCount ≠ 1 ∧ pid ≤ db.env.kernelPidLast ∧
      (g.fieldCount = 2 ∨ g.fieldCount = 3 ∨ g.fieldCount = 4 → (db.env.schedThreads pid).isSome)
  | .saul dev _ =>
    g.saulFieldCount = 0 ∧
      ∃ r, db.env.saulAt dev = some r ∧ (db.env.saulClassToStr r.type).length < n
  | .netif iface _ =>
    if g.netifFieldCount = 0 ∨ g.netifFieldCount = 3 then ∃ i, db.env.ifaceAt iface = some i
    else if g.netifFieldCount = 1 then
      ∃ i, db.env.ifaceAt iface = some i ∧ (i.addrText db.env).length < n ∧
        (i.ipv6Addr = none → ipv6AddrMaxStrLen ≤ n)
    else if g.netifFieldCount = 2 then
      ∃ i, db.env.ifaceAt iface = some i ∧ i.linkText.length < n
    else
      g.netifSubFieldCount = 1 ∧ iface.isSome ∧
        ∃ e, entryAt g.neighbours g.numNeighbours = some e ∧
          (db.env.ipv6AddrToStr e.addr).length < n

variable {db}

/-! ## Numbers -/

/-- `buf[size] = '\0'` behind a text that has been written. -/
theorem terminate_shows {n : Nat} {b : Buf n} {s : CString} (hp : s.chars <+: b.chars)
    (hlt : s.length < n) :
    ∃ b', terminate b s.length = .ok (b', (s.length : Int) + 1) ∧ b'.Shows s := by
  obtain ⟨b', hb', hs⟩ := Buf.shows_set hp hlt
  exact ⟨b', by rw [terminate, hb']; rfl, hs⟩

/-- What an array of `n` bytes shows for a number. -/
def numberText (n : Nat) (text : CString) : CString :=
  if n - 1 < text.length then .lit "---" else text

theorem shownFor_numberText {n : Nat} (hn : 0 < n) (text : CString) :
    ShownFor n text (numberText n text) := by
  unfold ShownFor numberText
  by_cases hlong : n - 1 < text.length
  · rw [if_neg (by omega), if_pos hlong]
    exact Or.inr rfl
  · rw [if_pos (by omega), if_neg hlong]

/-- **A number is shown as its text or as `---`.** -/
theorem putNumber_shows {n : Nat} (hn : 4 ≤ n) (text : CString) (buf : Buf n) :
    ∃ b b', putNumber text buf = .ok (b, (numberText n text).length) ∧
      terminate b (numberText n text).length = .ok (b', ((numberText n text).length : Int) + 1) ∧
        b'.Shows (numberText n text) := by
  unfold putNumber
  by_cases hlong : n - 1 < text.length
  · obtain ⟨b, hb, hchars⟩ := Buf.strncpyN_of_le (s := .lit "---") buf (Nat.le_refl n)
    have hlen : (CString.lit "---").length = 3 := by decide
    have hshows : b.Shows (.lit "---") := Buf.shows_of_strncpyBytes (by omega) hchars
    obtain ⟨b', hb', hs⟩ := terminate_shows hshows.begins (by omega)
    have htext : numberText n text = .lit "---" := if_pos hlong
    rw [htext]
    refine ⟨b, b', ?_, hb', hs⟩
    simp only [if_pos hlong, hb, inBounds, ok_bind, pure_eq_ok, hlen]
  · have hle : text.chars.length ≤ n := by
      have : text.length = text.chars.length := rfl
      omega
    obtain ⟨b, hb, hchars⟩ := Buf.store_of_le buf hle
    have hp : text.chars <+: b.chars := hchars ▸ List.prefix_append _ _
    obtain ⟨b', hb', hs⟩ := terminate_shows hp (by omega)
    have htext : numberText n text = text := if_neg hlong
    rw [htext]
    refine ⟨b, b', ?_, hb', hs⟩
    simp only [if_neg hlong, hb, inBounds, ok_bind, pure_eq_ok]

/-- A leaf of type `int`. -/
theorem valueToStr_int {n : Nat} (hn : 4 ≤ n) {g : Globals} {node : DbNode}
    (htype : dbNodeGetType db g node = .ok .int) (buf : Buf n) :
    dbNodeValueToStr db g node buf = (do
      let (g, val) ← dbNodeGetIntValue db g node
      let (buf, size) ← putNumber (fmtS32Dec val) buf
      return (g, ← terminate buf size)) := by
  simp only [dbNodeValueToStr, hn, decide_true, assert_true, ok_bind, htype]

/-- The value of such a leaf is shown as a number. -/
theorem valueToStr_of_int {n : Nat} (hn : 4 ≤ n) {g g' : Globals} {node : DbNode} {v : Int}
    (htype : dbNodeGetType db g node = .ok .int) (hv : dbNodeGetIntValue db g node = .ok (g', v))
    (buf : Buf n) :
    ∃ b, dbNodeValueToStr db g node buf
        = .ok (g', b, ((numberText n (fmtS32Dec v)).length : Int) + 1) ∧
      b.Shows (numberText n (fmtS32Dec v)) := by
  obtain ⟨b, b', hput, hterm, hs⟩ := putNumber_shows hn (fmtS32Dec v) buf
  refine ⟨b', ?_, hs⟩
  rw [valueToStr_int hn htype, hv]
  simp only [ok_bind, hput, hterm, pure_eq_ok]

/-- The same for a leaf of type `float`. -/
theorem valueToStr_of_float {n : Nat} (hn : 4 ≤ n) {g : Globals} {node : DbNode} {v : CFloat}
    (htype : dbNodeGetType db g node = .ok .float) (hv : dbNodeGetFloatValue db g node = .ok v)
    (buf : Buf n) :
    ∃ b, dbNodeValueToStr db g node buf
        = .ok (g, b, ((numberText n (db.env.fmtFloat v floatPrescision)).length : Int) + 1) ∧
      b.Shows (numberText n (db.env.fmtFloat v floatPrescision)) := by
  obtain ⟨b, b', hput, hterm, hs⟩ := putNumber_shows hn (db.env.fmtFloat v floatPrescision) buf
  refine ⟨b', ?_, hs⟩
  simp only [dbNodeValueToStr, hn, decide_true, assert_true, ok_bind, htype, hv, hput, hterm,
    pure_eq_ok]

theorem int_wellFormed_iff {n : Nat} (hn : 4 ≤ n) {g : Globals} {node : DbNode}
    (htype : dbNodeGetType db g node = .ok .int) (buf : Buf n) :
    TextWellFormed db g node buf ↔ ∃ r, dbNodeGetIntValue db g node = .ok r := by
  constructor
  · rintro ⟨text, shown, g', b', -, hval, -⟩
    rw [valueToStr_int hn htype] at hval
    obtain ⟨r, hr, -⟩ := bind_eq_ok.mp hval
    exact ⟨r, hr⟩
  · rintro ⟨⟨g', v⟩, hr⟩
    obtain ⟨b, hval, hs⟩ := valueToStr_of_int hn htype hr buf
    refine ⟨fmtS32Dec v, _, g', b, ?_, hval, hs, shownFor_numberText (by omega) _⟩
    simp [leafText, htype, hr, Except.toOption]

/-! ## Texts -/

/-- A leaf of type `str`. -/
theorem valueToStr_str {n : Nat} (hn : 4 ≤ n) {g : Globals} {node : DbNode}
    (htype : dbNodeGetType db g node = .ok .str) (buf : Buf n) :
    dbNodeValueToStr db g node buf = (do
      let (buf, size) ← dbNodeGetStrValue db g node buf (n - 1)
      return (g, ← terminate buf size)) := by
  simp only [dbNodeValueToStr, hn, decide_true, assert_true, ok_bind, htype]

theorem leafText_str {g : Globals} {node : DbNode} (htype : dbNodeGetType db g node = .ok .str) :
    leafText db g node = strText db g node := by
  simp only [leafText, htype]

/-- The getter writes `shown` and returns its length. -/
theorem str_wellFormed {n : Nat} (hn : 4 ≤ n) {g : Globals} {node : DbNode}
    (htype : dbNodeGetType db g node = .ok .str) {buf b : Buf n} {text shown : CString}
    (htext : strText db g node = some text)
    (hget : dbNodeGetStrValue db g node buf (n - 1) = .ok (b, shown.length))
    (hp : shown.chars <+: b.chars) (hlt : shown.length < n) (hfor : ShownFor n text shown) :
    TextWellFormed db g node buf := by
  obtain ⟨b', hb', hs⟩ := terminate_shows hp hlt
  refine ⟨text, shown, g, b', (leafText_str htype).trans htext, ?_, hs, hfor⟩
  rw [valueToStr_str hn htype, hget]
  simp only [ok_bind, hb', pure_eq_ok]

/-- A getter that traps. -/
theorem str_trap {n : Nat} (hn : 4 ≤ n) {g : Globals} {node : DbNode}
    (htype : dbNodeGetType db g node = .ok .str) {buf : Buf n} {t : Trap}
    (hget : dbNodeGetStrValue db g node buf (n - 1) = .error t) :
    ¬ TextWellFormed db g node buf := by
  rintro ⟨text, shown, g', b', -, hval, -⟩
  rw [valueToStr_str hn htype, hget] at hval
  cases hval

/-- A leaf without a text. -/
theorem str_none {n : Nat} {g : Globals} {node : DbNode}
    (htype : dbNodeGetType db g node = .ok .str) {buf : Buf n}
    (htext : strText db g node = none) : ¬ TextWellFormed db g node buf := by
  rintro ⟨text, shown, g', b', hleaf, -⟩
  rw [leafText_str htype, htext] at hleaf
  cases hleaf

/-- `strcpy` of the text into the array, with its length as the result. -/
theorem strcpy_wellFormed_iff {n : Nat} (hn : 4 ≤ n) {g : Globals} {node : DbNode}
    (htype : dbNodeGetType db g node = .ok .str) {buf : Buf n} (text : CString)
    (htext : strText db g node = some text)
    (hget : dbNodeGetStrValue db g node buf (n - 1)
      = (·, text.length) <$> inBounds (buf.strcpy text)) :
    TextWellFormed db g node buf ↔ text.length < n := by
  constructor
  · intro h
    by_contra hge
    refine str_trap hn htype (t := .bounds) ?_ h
    rw [hget, Buf.strcpy_eq_none _ (Nat.le_of_not_lt hge)]
    rfl
  · intro hlt
    obtain ⟨b, hb, hs⟩ := buf.strcpy_of_lt hlt
    rw [hb] at hget
    refine str_wellFormed hn htype htext hget hs.begins hlt ?_
    rw [ShownFor, if_pos hlt]

/-! ### `board.c` -/

theorem drop_last {n : Nat} (buf : Buf n) (hn : 0 < n) :
    ∃ c, buf.chars.drop (n - 1) = [c] ∧ buf.chars[n - 1]? = some c := by
  have hlt : n - 1 < buf.chars.length := by
    rw [buf.size]
    omega
  refine ⟨buf.chars[n - 1], ?_, List.getElem?_eq_getElem hlt⟩
  rw [List.drop_eq_getElem_cons hlt, List.drop_eq_nil_of_le (by rw [buf.size]; omega)]

/-- `board.c` copies a text into room that is larger. -/
theorem copyText_of_lt {n k : Nat} {text : CString} (buf : Buf n) (hlt : text.length < k)
    (hk : k ≤ n) : ∃ b, copyText text buf k = .ok (b, text.length) ∧ b.Shows text := by
  obtain ⟨b, hb, hchars⟩ := Buf.strncpyN_of_le (s := text) buf hk
  have hs : b.Shows text := Buf.shows_of_strncpyBytes hlt hchars
  refine ⟨b, ?_, hs⟩
  rw [copyText, hb]
  simp only [inBounds, ok_bind, hs.strlen_eq, pure_eq_ok]

/-- **`board.c` needs a terminator in the last byte for a text that leaves no room for one.** -/
theorem copyText_wellFormed_iff {n : Nat} (hn : 4 ≤ n) {g : Globals} {node : DbNode}
    (htype : dbNodeGetType db g node = .ok .str) {buf : Buf n} (text : CString)
    (htext : strText db g node = some text)
    (hget : dbNodeGetStrValue db g node buf (n - 1) = copyText text buf (n - 1)) :
    TextWellFormed db g node buf ↔ text.length + 1 < n ∨ buf.chars[n - 1]? = some nul := by
  by_cases hshort : text.length + 1 < n
  · -- `strncpy` pads the text
    have hlt : text.length < n - 1 := by omega
    obtain ⟨b, hb, hs⟩ := copyText_of_lt buf hlt (Nat.sub_le n 1)
    have hwf : TextWellFormed db g node buf := by
      rw [hb] at hget
      refine str_wellFormed hn htype htext hget hs.begins (by omega) ?_
      rw [ShownFor, if_pos (by omega)]
    exact ⟨fun _ => Or.inl hshort, fun _ => hwf⟩
  · -- `strncpy` fills all bytes but the last
    obtain ⟨b, hb, hchars⟩ := Buf.strncpyN_of_le (s := text) buf (Nat.sub_le n 1)
    obtain ⟨c, hdrop, hlast⟩ := drop_last buf (by omega)
    rw [hdrop] at hchars
    have hcopy : copyText text buf (n - 1) = (do return (b, ← inBounds b.strlen)) := by
      rw [copyText, hb]
      rfl
    rw [hcopy] at hget
    have hbytes : b.chars = (text.cut (n - 1)).chars ++ [c] := by
      have hpad : n - 1 - text.length = 0 := by omega
      rw [hchars, Buf.strncpyBytes, hpad, List.replicate_zero, List.append_nil]
      rfl
    have hlen : (text.cut (n - 1)).length = n - 1 := CString.length_cut (by omega)
    by_cases hnul : c = nul
    · subst hnul
      have hs : b.Shows (text.cut (n - 1)) := by
        refine ⟨[], ?_⟩
        rw [List.append_nil]
        exact hbytes.symm
      have hwf : TextWellFormed db g node buf := by
        rw [hs.strlen_eq] at hget
        refine str_wellFormed hn htype htext hget hs.begins (by omega) ?_
        unfold ShownFor
        split_ifs
        · exact CString.cut_of_le (by omega)
        · exact Or.inl (text.cut_begins _)
      exact ⟨fun _ => Or.inr hlast, fun _ => hwf⟩
    · have hnone : b.strlen = none := by
        rw [Buf.strlen, if_neg]
        rw [hbytes]
        simp only [List.mem_append, List.mem_singleton, not_or]
        exact ⟨(text.cut (n - 1)).noNul, fun h => hnul h.symm⟩
      have hbad : ¬ TextWellFormed db g node buf := by
        refine str_trap hn htype (t := .bounds) ?_
        rw [hget, hnone]
        rfl
      refine ⟨fun h => absurd h hbad, ?_⟩
      rintro (h | h)
      · exact absurd h hshort
      · exact absurd (Option.some.inj (hlast.symm.trans h)) hnul

/-! ## The accessors of a family -/

section Accessors

variable {g : Globals} {n : Nat}

theorem intValue_ps {pid : Nat} {level : PsLevel}
    (htype : dbNodeGetType db g (.ps pid level) = .ok .int) :
    dbNodeGetIntValue db g (.ps pid level) = (do return (g, ← psNodeGetintValue db.env g pid)) := by
  simp only [dbNodeGetIntValue, htype, ok_bind, decide_true, assert_true]

theorem intValue_netif {iface : Option Nat} {level : NetifLevel}
    (htype : dbNodeGetType db g (.netif iface level) = .ok .int) :
    dbNodeGetIntValue db g (.netif iface level) = netifNodeGetintValue db.env g iface := by
  simp only [dbNodeGetIntValue, htype, ok_bind, decide_true, assert_true]

theorem strValue_ps {pid : Nat} {level : PsLevel}
    (htype : dbNodeGetType db g (.ps pid level) = .ok .str) (buf : Buf n) (bufsize : Nat) :
    dbNodeGetStrValue db g (.ps pid level) buf bufsize = psNodeGetstrValue db.env g pid buf := by
  simp only [dbNodeGetStrValue, htype, ok_bind, decide_true, assert_true]

theorem strValue_saul {dev : Option Nat} {level : SaulLevel}
    (htype : dbNodeGetType db g (.saul dev level) = .ok .str) (buf : Buf n) (bufsize : Nat) :
    dbNodeGetStrValue db g (.saul dev level) buf bufsize
      = saulNodeGetstrValue db.env g dev buf := by
  simp only [dbNodeGetStrValue, htype, ok_bind, decide_true, assert_true]

theorem strValue_netif {iface : Option Nat} {level : NetifLevel}
    (htype : dbNodeGetType db g (.netif iface level) = .ok .str) (buf : Buf n) (bufsize : Nat) :
    dbNodeGetStrValue db g (.netif iface level) buf bufsize
      = netifNodeGetstrValue db.env g iface buf := by
  simp only [dbNodeGetStrValue, htype, ok_bind, decide_true, assert_true]

/-- The interface that is read is the one that the node is about. -/
theorem iface_eq_ok {iface : Option Nat} {i : Netif} :
    db.env.iface iface = .ok i ↔ db.env.ifaceAt iface = some i := by
  cases iface with
  | none => simp [Env.iface, Env.ifaceAt]
  | some k => cases hk : db.env.ifaces[k]? <;> simp [Env.iface, Env.ifaceAt, hk]

end Accessors

/-! ## Static entries -/

/-- An accessor of the type that the entry has. -/
def DbFlStaticEntry.Typed (s : DbFlStaticEntry) : Prop :=
  (s.type = .int ∧ ∃ f, s.getValueFn = .int f) ∨ (s.type = .float ∧ ∃ f, s.getValueFn = .float f) ∨
    s.type = .str ∧ ∃ f, s.getValueFn = .str f

/-- The entries of every build have the accessors that their types promise. -/
theorem typed_ofEnv {cfg : Config} {e : DbFlEntry} (he : e ∈ dbIndex cfg) {s : DbFlStaticEntry}
    (hs : s ∈ e.staticEntries) : s.Typed := by
  have hcases := mem_dbIndex he
  rcases hcases with rfl | rfl | rfl | rfl <;>
    · simp only [boardEntry, runtimeEntry, networkEntry, saulEntry, List.mem_cons, List.not_mem_nil,
        or_false] at hs
      rcases hs with rfl | rfl | rfl | rfl | rfl <;> simp [DbFlStaticEntry.Typed]

namespace DbFlStaticEntry.Typed

variable {s : DbFlStaticEntry} (h : s.Typed)
include h

theorem int (ht : s.type = .int) : ∃ f, s.getValueFn = .int f := by
  rcases h with ⟨-, hf⟩ | ⟨ht', -⟩ | ⟨ht', -⟩
  · exact hf
  · cases ht'.symm.trans ht
  · cases ht'.symm.trans ht

theorem float (ht : s.type = .float) : ∃ f, s.getValueFn = .float f := by
  rcases h with ⟨ht', -⟩ | ⟨-, hf⟩ | ⟨ht', -⟩
  · cases ht'.symm.trans ht
  · exact hf
  · cases ht'.symm.trans ht

end DbFlStaticEntry.Typed

/-- The entry behind a node of `db_fl.c` that has a type. -/
theorem fl_type_cases {g : Globals} {flIdx subIdx : UInt8} {isRoot : Bool} {type : DbNodeType}
    (h : dbNodeGetType db g (.fl flIdx subIdx isRoot) = .ok type) :
    (isRoot = true ∧ type = .inner) ∨
      (isRoot = false ∧ ∃ e s, db.dbIndex[flIdx.toNat]? = some e ∧
        e.staticEntries[subIdx.toNat]? = some s ∧ type = s.type) := by
  cases isRoot with
  | true => exact Or.inl ⟨rfl, (Except.ok.inj h).symm⟩
  | false =>
    refine Or.inr ⟨rfl, ?_⟩
    obtain ⟨e, he, h⟩ := bind_eq_ok.mp h
    obtain ⟨s, hs, h⟩ := bind_eq_ok.mp h
    refine ⟨e, s, ?_, ?_, (Except.ok.inj h).symm⟩
    · unfold flEntry at he
      split at he
      · next heq => rw [heq, Except.ok.inj he]
      · cases he
    · unfold staticEntry at hs
      split at hs
      · next heq => rw [heq, Except.ok.inj hs]
      · cases hs

/-- The texts among the static entries are those of the board. -/
theorem text_ofEnv {cfg : Config} {flIdx subIdx : UInt8} {e : DbFlEntry} {s : DbFlStaticEntry}
    (he : (dbIndex cfg)[flIdx.toNat]? = some e) (hs : e.staticEntries[subIdx.toNat]? = some s)
    (htype : s.type = .str) :
    flIdx = 0 ∧ ((subIdx = 0 ∧ s.getValueFn = .str boardGetName) ∨
      (subIdx = 1 ∧ s.getValueFn = .str boardGetMcu)) := by
  have hmem := List.mem_of_getElem? hs
  have hrest : e ∈ (dbIndex cfg).tail → s.type ≠ .str := by
    intro htail
    have hcases : e = runtimeEntry cfg ∨ e = networkEntry ∨ e = saulEntry := by
      simp only [dbIndex, List.cons_append, List.nil_append, List.tail_cons, List.mem_cons,
        List.mem_append] at htail
      rcases htail with rfl | hnetwork | hsaul
      · simp
      · split_ifs at hnetwork <;> simp_all
      · split_ifs at hsaul <;> simp_all
    rcases hcases with rfl | rfl | rfl <;>
      · simp only [runtimeEntry, networkEntry, saulEntry, List.mem_cons, List.not_mem_nil,
          or_false] at hmem
        rcases hmem with rfl | rfl | rfl | rfl | rfl <;> simp
  have hzero : flIdx.toNat = 0 := by
    by_contra hne
    obtain ⟨k, hk⟩ := Nat.exists_eq_succ_of_ne_zero hne
    refine hrest ?_ htype
    rw [hk] at he
    refine List.mem_of_getElem? (i := k) ?_
    rwa [List.getElem?_tail]
  obtain rfl : e = boardEntry := by
    rw [hzero] at he
    exact (Option.some.inj he).symm
  refine ⟨UInt8.toNat_inj.mp hzero, ?_⟩
  have hlt := (List.getElem?_eq_some_iff.mp hs).1
  have hidx : subIdx.toNat = 0 ∨ subIdx.toNat = 1 ∨ subIdx.toNat = 2 ∨ subIdx.toNat = 3 ∨
      subIdx.toNat = 4 := by
    simp only [boardEntry, List.length_cons, List.length_nil] at hlt
    omega
  rcases hidx with hi | hi | hi | hi | hi <;>
    (rw [hi] at hs; obtain rfl := Option.some.inj hs)
  · exact Or.inl ⟨UInt8.toNat_inj.mp hi, rfl⟩
  · exact Or.inr ⟨UInt8.toNat_inj.mp hi, rfl⟩
  · cases htype
  · cases htype
  · cases htype

section Families

variable {cfg : Config} {env : Env} {n : Nat} {g : Globals}

theorem fl_int (hn : 4 ≤ n) {flIdx subIdx : UInt8} {isRoot : Bool}
    (htype : dbNodeGetType (.ofEnv cfg env) g (.fl flIdx subIdx isRoot) = .ok .int) (buf : Buf n) :
    TextWellFormed (.ofEnv cfg env) g (.fl flIdx subIdx isRoot) buf
      ↔ TextFits (.ofEnv cfg env) g buf (.fl flIdx subIdx isRoot) := by
  rw [int_wellFormed_iff hn htype]
  rcases fl_type_cases htype with ⟨-, htype'⟩ | ⟨rfl, e, s, he, hs, hint⟩
  · cases htype'
  · have htyped := typed_ofEnv (List.mem_of_getElem? he) (List.mem_of_getElem? hs)
    obtain ⟨f, hf⟩ := htyped.int hint.symm
    have hval := static_int he hs hint.symm hf g
    refine ⟨fun _ text htext => ?_, fun _ => ⟨_, hval⟩⟩
    -- an entry with a text is not of type `int`
    exfalso
    unfold boardText at htext
    split_ifs at htext with h₀ h₁
    · obtain ⟨rfl, rfl⟩ := h₀
      obtain rfl : boardEntry = e := Option.some.inj he
      obtain rfl := Option.some.inj hs
      cases hint
    · obtain ⟨rfl, rfl⟩ := h₁
      obtain rfl : boardEntry = e := Option.some.inj he
      obtain rfl := Option.some.inj hs
      cases hint

theorem fl_str (hn : 4 ≤ n) {flIdx subIdx : UInt8} {isRoot : Bool}
    (htype : dbNodeGetType (.ofEnv cfg env) g (.fl flIdx subIdx isRoot) = .ok .str) (buf : Buf n) :
    TextWellFormed (.ofEnv cfg env) g (.fl flIdx subIdx isRoot) buf
      ↔ TextFits (.ofEnv cfg env) g buf (.fl flIdx subIdx isRoot) := by
  rcases fl_type_cases htype with ⟨-, htype'⟩ | ⟨rfl, e, s, he, hs, hstr⟩
  · cases htype'
  · have hread {f} (hf : s.getValueFn = .str f) := static_str he hs hstr.symm hf g buf (n - 1)
    obtain ⟨rfl, ⟨rfl, hf⟩ | ⟨rfl, hf⟩⟩ := text_ofEnv he hs hstr.symm
    · rw [copyText_wellFormed_iff hn htype env.board.riotBoard rfl (hread hf)]
      simp [TextFits, boardText, Db.ofEnv]
    · rw [copyText_wellFormed_iff hn htype env.board.riotMcu rfl (hread hf)]
      simp [TextFits, boardText, Db.ofEnv]

/-! ### `ps.c` -/

theorem liveThread_eq {pid : Nat} {p : Thread} (hpid : pid ≤ db.env.kernelPidLast)
    (hp : db.env.schedThreads pid = some p) : liveThread db.env pid = .ok p := by
  simp [liveThread, Env.thread, hpid, hp]

theorem liveThread_none {pid : Nat} (hp : db.env.schedThreads pid = none) :
    ∃ t, liveThread db.env pid = .error t := by
  by_cases hpid : pid ≤ db.env.kernelPidLast
  · exact ⟨.assert, by simp [liveThread, Env.thread, hpid, hp]⟩
  · exact ⟨.bounds, by simp [liveThread, Env.thread, hpid]⟩

theorem psNodeGettype_field (g : Globals) :
    psNodeGettype g .field = if g.fieldCount = 1 then .str else .int := by
  rw [psNodeGettype]
  split_ifs <;> simp_all

theorem ps_type {pid : Nat} {level : PsLevel} {type : DbNodeType} (hleaf : type ≠ .inner)
    (h : dbNodeGetType db g (.ps pid level) = .ok type) :
    level = .field ∧ type = if g.fieldCount = 1 then .str else .int := by
  cases level with
  | root | process => exact absurd (Except.ok.inj h).symm hleaf
  | field => exact ⟨rfl, (Except.ok.inj h).symm.trans (psNodeGettype_field g)⟩

theorem ps_int (hn : 4 ≤ n) {pid : Nat} {level : PsLevel}
    (htype : dbNodeGetType db g (.ps pid level) = .ok .int) (buf : Buf n) :
    TextWellFormed db g (.ps pid level) buf ↔ TextFits db g buf (.ps pid level) := by
  rw [int_wellFormed_iff hn htype]
  obtain ⟨-, hint⟩ := ps_type (by simp) htype
  have hne : g.fieldCount ≠ 1 := by
    intro h
    rw [if_pos h] at hint
    cases hint
  rw [intValue_ps htype]
  constructor
  · rintro ⟨r, hr⟩
    obtain ⟨v, hv, -⟩ := bind_eq_ok.mp hr
    unfold psNodeGetintValue at hv
    obtain ⟨⟨⟩, hassert, hv⟩ := bind_eq_ok.mp hv
    refine ⟨hne, by simpa using hassert, fun hlive => ?_⟩
    by_contra hnone
    rw [Option.not_isSome_iff_eq_none] at hnone
    obtain ⟨t, ht⟩ : ∃ t, liveThread db.env pid = .error t := liveThread_none hnone
    rcases hlive with h | h | h <;> simp [h, ht] at hv
  · rintro ⟨-, hpid, hlive⟩
    have hassert : assert (decide (pid ≤ db.env.kernelPidLast)) = .ok () := by simp [hpid]
    cases hp : db.env.schedThreads pid with
    | some p =>
      simp only [psNodeGetintValue, hassert, ok_bind, liveThread_eq hpid hp]
      split_ifs <;> exact ⟨_, rfl⟩
    | none =>
      have hdead : ¬ (g.fieldCount = 2 ∨ g.fieldCount = 3 ∨ g.fieldCount = 4) := by
        intro h
        rw [hp] at hlive
        cases hlive h
      obtain ⟨h₂, h₃, h₄⟩ : g.fieldCount ≠ 2 ∧ g.fieldCount ≠ 3 ∧ g.fieldCount ≠ 4 := by
        simpa [not_or] using hdead
      simp only [psNodeGetintValue, hassert, ok_bind, if_neg h₂, if_neg h₃, if_neg h₄]
      split_ifs <;> exact ⟨_, rfl⟩

theorem stateName_short (status : ThreadStatus) :
    (CString.lit (stateNames status)).length < dbNodeNameMax := by
  cases status <;> decide

/-- **The state of a process is never well formed**: the returned length is always 88. -/
theorem ps_str (hn : 4 ≤ n) {pid : Nat} {level : PsLevel}
    (htype : dbNodeGetType db g (.ps pid level) = .ok .str) (buf : Buf n) :
    ¬ TextWellFormed db g (.ps pid level) buf := by
  obtain ⟨-, hstr⟩ := ps_type (by simp) htype
  have hfc : g.fieldCount = 1 := by
    by_contra h
    rw [if_neg h] at hstr
    cases hstr
  rintro ⟨text, shown, g', b', -, hval, hs, -⟩
  rw [valueToStr_str hn htype] at hval
  obtain ⟨⟨b, size⟩, hget, hval⟩ := bind_eq_ok.mp hval
  obtain ⟨⟨b'', r⟩, hterm, hval⟩ := bind_eq_ok.mp hval
  obtain ⟨-, rfl, rfl⟩ : g = g' ∧ b'' = b' ∧ r = (shown.length : Int) + 1 := by simpa using hval
  have hget' : psNodeGetstrValue db.env g pid buf = .ok (b, size) :=
    (strValue_ps htype buf (n - 1)).symm.trans hget
  unfold psNodeGetstrValue at hget'
  obtain ⟨_, -, hget'⟩ := bind_eq_ok.mp hget'
  obtain ⟨p, -, hget'⟩ := bind_eq_ok.mp hget'
  rw [if_pos hfc] at hget'
  obtain ⟨b₁, hb₁, hget'⟩ := bind_eq_ok.mp hget'
  obtain ⟨rfl, rfl⟩ := Prod.mk.inj (Except.ok.inj hget')
  have hcopy := inBounds_eq_ok.mp hb₁
  unfold terminate at hterm
  obtain ⟨b₂, hb₂, hterm⟩ := bind_eq_ok.mp hterm
  obtain ⟨rfl, hlen⟩ := Prod.mk.inj (Except.ok.inj hterm)
  have hset := inBounds_eq_ok.mp hb₂
  have hshort : (CString.lit (stateNames p.status)).length < 30 := stateName_short p.status
  -- the name is terminated in the first 30 bytes, and the last byte is that at 88
  have hname : b₁.Shows (.lit (stateNames p.status)) :=
    Buf.shows_of_strncpyBytes hshort (Buf.store_eq_some hcopy).2
  obtain rfl := hs.unique (hname.set (by omega) hset)
  omega

/-! ### `saul_devices.c` -/

theorem saul_str (hn : 4 ≤ n) {dev : Option Nat} {level : SaulLevel}
    (htype : dbNodeGetType db g (.saul dev level) = .ok .str) (buf : Buf n) :
    TextWellFormed db g (.saul dev level) buf ↔ TextFits db g buf (.saul dev level) := by
  by_cases hzero : g.saulFieldCount = 0
  · have hget := strValue_saul htype buf (n - 1)
    cases hr : db.env.saulAt dev with
    | none =>
      have hbad : ¬ TextWellFormed db g (.saul dev level) buf := str_none htype (by
        simp [strText, hzero, hr])
      simp [hbad, TextFits, hr]
    | some r =>
      obtain ⟨i, rfl, hi⟩ := Option.bind_eq_some_iff.mp hr
      rw [strcpy_wellFormed_iff hn htype (db.env.saulClassToStr r.type)
        (by simp [strText, hzero, hr])
        (by
          rw [hget]
          simp only [saulNodeGetstrValue, Option.isSome_some, assert_true, ok_bind, if_pos hzero,
            Env.saul, hi]
          cases inBounds (buf.strcpy (db.env.saulClassToStr r.type)) <;> rfl)]
      simp [TextFits, hzero, hr]
  · have hbad : ¬ TextWellFormed db g (.saul dev level) buf := str_none htype (by
      simp [strText, hzero])
    simp [hbad, TextFits, hzero]

/-! ### `netif.c` -/

theorem netif_int (hn : 4 ≤ n) {iface : Option Nat} {level : NetifLevel}
    (htype : dbNodeGetType db g (.netif iface level) = .ok .int) (buf : Buf n) :
    TextWellFormed db g (.netif iface level) buf ↔ TextFits db g buf (.netif iface level) := by
  rw [int_wellFormed_iff hn htype]
  have hfield : g.netifFieldCount = 0 ∨ g.netifFieldCount = 3 := by
    have hint := Except.ok.inj htype
    unfold netifNodeGettype at hint
    split_ifs at hint with h₁ h₂ h₃
    exact h₃
  rw [intValue_netif htype, TextFits, if_pos hfield]
  simp only [← iface_eq_ok]
  unfold netifNodeGetintValue
  constructor
  · rintro ⟨r, hr⟩
    split_ifs at hr with h₀ h₃
    · obtain ⟨i, hi, -⟩ := bind_eq_ok.mp hr
      exact ⟨i, hi⟩
    · obtain ⟨i, hi, -⟩ := bind_eq_ok.mp hr
      exact ⟨i, hi⟩
    · exact absurd hfield (by simp [h₀, h₃])
  · rintro ⟨i, hi⟩
    simp only [hi, ok_bind, pure_eq_ok]
    split_ifs <;> exact ⟨_, rfl⟩

theorem iface_eq {iface : Option Nat} {i : Netif} (h : db.env.ifaceAt iface = some i) :
    db.env.iface iface = .ok i ∧ iface.isSome := by
  obtain ⟨k, rfl, -⟩ := Option.bind_eq_some_iff.mp h
  exact ⟨iface_eq_ok.mpr h, rfl⟩

/-- The text of an address, or 46 NULs where there is none. -/
theorem netif_addr (hn : 4 ≤ n) {iface : Option Nat} {level : NetifLevel}
    (htype : dbNodeGetType db g (.netif iface level) = .ok .str) {i : Netif}
    (hi : db.env.ifaceAt iface = some i) {buf : Buf n}
    (htext : strText db g (.netif iface level) = some (i.addrText db.env))
    (hget : dbNodeGetStrValue db g (.netif iface level) buf (n - 1)
      = netifGetIpv6Addr db.env iface buf) :
    TextWellFormed db g (.netif iface level) buf
      ↔ (i.addrText db.env).length < n ∧ (i.ipv6Addr = none → ipv6AddrMaxStrLen ≤ n) := by
  unfold netifGetIpv6Addr at hget
  rw [(iface_eq hi).1, ok_bind] at hget
  cases ha : i.ipv6Addr with
  | some a =>
    have haddr : i.addrText db.env = db.env.ipv6AddrToStr a := by rw [Netif.addrText, ha]
    rw [ha] at hget
    rw [haddr] at htext ⊢
    rw [strcpy_wellFormed_iff hn htype _ htext (by
      rw [hget]
      dsimp only
      cases inBounds (buf.strcpy (db.env.ipv6AddrToStr a)) <;> rfl)]
    simp
  | none =>
    have haddr : i.addrText db.env = .lit "" := by rw [Netif.addrText, ha]
    have hempty : (CString.lit "").length = 0 := by decide
    rw [ha] at hget
    rw [haddr] at htext ⊢
    by_cases hlong : ipv6AddrMaxStrLen ≤ n
    · have hle : (List.replicate ipv6AddrMaxStrLen nul).length ≤ n := by
        rwa [List.length_replicate]
      obtain ⟨b, hb, hchars⟩ := buf.store_of_le hle
      have hwf : TextWellFormed db g (.netif iface level) buf := by
        have hret : dbNodeGetStrValue db g (.netif iface level) buf (n - 1)
            = .ok (b, (CString.lit "").length) := by
          rw [hget, hb]
          rfl
        refine str_wellFormed hn htype htext hret List.nil_prefix (by omega) ?_
        rw [ShownFor, if_pos (by omega)]
      exact ⟨fun _ => ⟨by omega, fun _ => hlong⟩, fun _ => hwf⟩
    · have hbad : ¬ TextWellFormed db g (.netif iface level) buf := by
        refine str_trap hn htype (t := .bounds) ?_
        have hnone : buf.store (List.replicate ipv6AddrMaxStrLen nul) = none := by
          unfold Buf.store
          rw [dif_neg (by rwa [List.length_replicate])]
        rw [hget, hnone]
        rfl
      exact ⟨fun h => absurd h hbad, fun h => absurd (h.2 rfl) hlong⟩

theorem netif_str (hn : 4 ≤ n) {iface : Option Nat} {level : NetifLevel}
    (htype : dbNodeGetType db g (.netif iface level) = .ok .str) (buf : Buf n) :
    TextWellFormed db g (.netif iface level) buf ↔ TextFits db g buf (.netif iface level) := by
  have hfield : ¬ (g.netifFieldCount = 0 ∨ g.netifFieldCount = 3) := by
    intro h
    have hstr := Except.ok.inj htype
    unfold netifNodeGettype at hstr
    split_ifs at hstr
  have hget := strValue_netif htype buf (n - 1)
  unfold netifNodeGetstrValue at hget
  rw [TextFits, if_neg hfield]
  by_cases h₁ : g.netifFieldCount = 1
  · rw [if_pos h₁]
    cases hi : db.env.ifaceAt iface with
    | none =>
      have hbad : ¬ TextWellFormed db g (.netif iface level) buf := str_none htype (by
        simp [strText, h₁, hi])
      simp [hbad]
    | some i =>
      simp only [(iface_eq hi).2, assert_true, ok_bind, if_pos h₁] at hget
      rw [netif_addr hn htype hi (by simp [strText, h₁, hi]) hget]
      constructor
      · rintro ⟨hlt, hnone⟩
        exact ⟨i, rfl, hlt, hnone⟩
      · rintro ⟨j, hj, h⟩
        obtain rfl := Option.some.inj hj
        exact h
  · rw [if_neg h₁]
    by_cases h₂ : g.netifFieldCount = 2
    · rw [if_pos h₂]
      cases hi : db.env.ifaceAt iface with
      | none =>
        have hbad : ¬ TextWellFormed db g (.netif iface level) buf := str_none htype (by
          simp [strText, h₂, hi])
        simp [hbad]
      | some i =>
        simp only [(iface_eq hi).2, assert_true, ok_bind, if_neg h₁, if_pos h₂, netifGetLinkType,
          (iface_eq hi).1] at hget
        rw [strcpy_wellFormed_iff hn htype i.linkText (by simp [strText, h₂, hi]) (by
          rw [hget]
          change (do return (← inBounds (buf.strcpy i.linkText), i.linkText.length)) = _
          cases inBounds (buf.strcpy i.linkText) <;> rfl)]
        simp
    · rw [if_neg h₂]
      by_cases hs : g.netifSubFieldCount = 1
      · cases he : entryAt g.neighbours g.numNeighbours with
        | none =>
          have hbad : ¬ TextWellFormed db g (.netif iface level) buf := str_none htype (by
            simp [strText, h₁, h₂, hs, he])
          simp [hbad]
        | some e =>
          cases iface with
          | none =>
            have hbad : ¬ TextWellFormed db g (.netif none level) buf := by
              refine str_trap hn htype (t := .assert) ?_
              rw [hget]
              rfl
            simp [hbad]
          | some k =>
            simp only [Option.isSome_some, assert_true, ok_bind, if_neg h₁, if_neg h₂, if_pos hs,
              netifGetIp, readIp_eq db.env he] at hget
            rw [strcpy_wellFormed_iff hn htype (db.env.ipv6AddrToStr e.addr)
              (by simp [strText, h₁, h₂, hs, he]) (by
                rw [hget]
                cases hb : buf.strcpy (db.env.ipv6AddrToStr e.addr) with
                | none => rfl
                | some b =>
                  have hlen := (Buf.strcpy_eq_some hb).strlen_eq
                  simp only [inBounds, map_ok, Except.map, ok_bind, hlen, pure_eq_ok])]
            simp [hs]
      · have hbad : ¬ TextWellFormed db g (.netif iface level) buf := str_none htype (by
          simp [strText, h₁, h₂, hs])
        simp [hbad, hs]

end Families

variable (db) in
/-- The text of every leaf that a lookup finds in a reachable state is well formed. -/
def TextsWellFormed : Prop :=
  ∀ g, Reachable db.dbIndex g →
    ∀ (fuel : Nat) (path : CString) (child : DbNode) (nameBuf : NameBuf) (found : Found),
      dbFindNodeByPath db fuel g path child nameBuf = .ok found → found.code = 0 →
      (dbNodeGetType db found.g found.node = .ok .int ∨
        dbNodeGetType db found.g found.node = .ok .str) →
      ∀ (n : Nat) (buf : Buf n), 4 ≤ n → TextWellFormed db found.g found.node buf

/-- The state of a process: 89 bytes for a text of 7. -/
theorem not_textsWellFormed : ¬ TextsWellFormed smallDb := by
  intro h
  have hwf := h {} ⟨smallEnv, .boot smallEnv, .refl _, rfl⟩ 8 (.lit "/runtime/ps/idle/state") .null
    (Buf.zero _) ⟨{ fieldCount := 1 }, 0, .ps 1 .field⟩ (by decide) rfl (Or.inr rfl) 128
    (Buf.zero _) (by decide)
  exact ps_str (by decide) rfl (Buf.zero 128) hwf

/--
**The bytes that a value takes are its text and its terminator exactly when the text fits.** For
numbers there is no other condition than that the thread or the interface is there.
-/
theorem textWellFormed_iff (cfg : Config) (env : Env) (g : Globals) (node : DbNode) (n : Nat)
    (hn : 4 ≤ n) (buf : Buf n)
    (htype : dbNodeGetType (.ofEnv cfg env) g node = .ok .int ∨
      dbNodeGetType (.ofEnv cfg env) g node = .ok .str) :
    TextWellFormed (.ofEnv cfg env) g node buf ↔ TextFits (.ofEnv cfg env) g buf node := by
  rcases htype with htype | htype
  · cases node with
    | null | root _ => cases htype
    | fl flIdx subIdx isRoot => exact fl_int hn htype buf
    | ps pid level => exact ps_int hn htype buf
    | saul dev level => cases level <;> cases htype
    | netif iface level => exact netif_int hn htype buf
  · cases node with
    | null | root _ => cases htype
    | fl flIdx subIdx isRoot => exact fl_str hn htype buf
    | ps pid level =>
      have hbad := ps_str hn htype buf
      obtain ⟨-, hstr⟩ := ps_type (by simp) htype
      refine ⟨fun h => absurd h hbad, ?_⟩
      rintro ⟨hne, -⟩
      rw [if_neg hne] at hstr
      cases hstr
    | saul dev level => exact saul_str hn htype buf
    | netif iface level => exact netif_str hn htype buf

theorem textWellFormed_board_name :
    TextWellFormed smallDb {} (.fl 0 0 false) (Buf.zero 128)
      ↔ TextFits smallDb {} (Buf.zero 128) (.fl 0 0 false) :=
  textWellFormed_iff {} smallEnv {} (.fl 0 0 false) 128 (by decide) (Buf.zero 128) (Or.inr rfl)

end Dca
