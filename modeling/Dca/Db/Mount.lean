import Dca.Db.Files
import Dca.Db.Listing
import Dca.Db.Summary
import Dca.Db.Threads
import Dca.Lib.Objects

/-!
# The mounted database

A program holds any number of open files and directories, calls them in any order, and goes on to
open others, while other threads use the database. A file of a value that stays the same is a text
with a position, and a directory is a list of names that is used up. Each behaves as if it were the
only one.
-/

namespace Dca

open CLib

/-! ## Directories -/

/-- `vfs_DIR` with the node in its `private_data`. -/
structure VfsDir where
  node : DbNode
  deriving DecidableEq

/-- `-EBADF` -/
def ebadf : Int := -9

section Operations

variable (db : Db)

/-- `dcafs_opendir` -/
def dcafsOpendir (fuel : Nat) (g : Globals) (dirname : CString) (child : DbNode)
    (nameBuf : NameBuf) : Res (Globals × Int × Option VfsDir) := do
  let found ← dbFindNodeByPath db fuel g dirname child nameBuf
  if found.code < 0 then return (found.g, found.code, none)
  return (found.g, 0, some ⟨found.node⟩)

/--
`dcafs_readdir`. `node` is what the local variable holds at first, and `dName` the part of
`entry->d_name` that a name takes.
-/
def dcafsReaddir (g : Globals) (dirp : VfsDir) (node : DbNode) (dName : NameBuf) :
    Res (Globals × VfsDir × Int × NameBuf) := do
  let c ← dbNodeGetNextChild db ⟨g, dirp.node, node⟩
  if ← dbNodeIsNull db c.g c.child then return (c.g, ⟨c.node⟩, 0, dName)
  let dName ← dbNodeGetName db c.g c.child dName
  return (c.g, ⟨c.node⟩, 1, dName)

/-- `dcafs_closedir` -/
def dcafsClosedir (_dirp : VfsDir) : Int := 0

variable {w : FileWidth}

/-- `dcafs_close` -/
def dcafsClose (_filp : VfsFile w) : Int := 0

/-- `dcafs_write` -/
def dcafsWrite (_filp : VfsFile w) (_src : List Char) : Int := ebadf

end Operations

/-! ## Handles -/

/-- An open file or directory, or one that has been closed. -/
inductive Handle (w : FileWidth) where
  | file (filp : VfsFile w)
  | dir (dirp : VfsDir)
  | closed
  deriving DecidableEq

/-- A call on a handle. `node` and `dName` are what the variables of `dcafs_readdir` hold at first. -/
inductive HandleCall (w : FileWidth) where
  | file (call : FileCall w)
  | fstat
  | write (src : List Char)
  | readdir (node : DbNode) (dName : NameBuf)
  | close

deriving instance DecidableEq for FileReply

/-- What a call returns and writes. An entry is the string in its `d_name`. -/
inductive HandleReply (w : FileWidth) where
  | file (reply : FileReply)
  | stat (st : Stat w)
  | entry (dName : CString)
  | code (ret : Int)
  deriving DecidableEq

section Calls

variable (db : Db) {w : FileWidth}

/-- A call on a handle, if it comes back. -/
def Handle.call (g : Globals) : Handle w → HandleCall w → Option (Globals × Handle w × HandleReply w)
  | .file filp, .file call =>
    (FileState.call db ⟨g, filp⟩ call).toOption.map fun r => (r.1.g, .file r.1.filp, .file r.2)
  | .file filp, .fstat => (dcafsFstat db g filp).toOption.map fun st => (g, .file filp, .stat st)
  | .file filp, .write src => some (g, .file filp, .code (dcafsWrite filp src))
  | .file filp, .close => some (g, .closed, .code (dcafsClose filp))
  | .dir dirp, .readdir node dName =>
    (dcafsReaddir db g dirp node dName).toOption.map fun r =>
      (r.1, .dir r.2.1, if r.2.2.1 = 0 then .code 0 else .entry r.2.2.2.str)
  | .dir dirp, .close => some (g, .closed, .code (dcafsClosedir dirp))
  | _, _ => none

/-- What else happens. `stack` and `fuel` are those of the lookup. -/
inductive MountEvent (w : FileWidth) where
  | openFile (name : CString) (flags : Nat) (stack : Stack) (fuel : Nat)
  | opendir (dirname : CString) (stack : Stack) (fuel : Nat)
  | stat (name : CString) (stack : Stack) (fuel : Nat)
  /-- The database is used by another thread. -/
  | elsewhere (call : ForeignCall)

/-- The shared variables behind an event, and the handle that it opens. -/
def MountEvent.exec (g : Globals) : MountEvent w → Option (Globals × List (Handle w))
  | .openFile name flags stack fuel =>
    (dcafsOpen db w fuel g name flags stack.node stack.name).toOption.map fun r =>
      (r.1, (r.2.2.map .file).toList)
  | .opendir dirname stack fuel =>
    (dcafsOpendir db fuel g dirname stack.node stack.name).toOption.map fun r =>
      (r.1, (r.2.2.map .dir).toList)
  | .stat name stack fuel =>
    (dcafsStat db w fuel g name stack.node stack.name).toOption.map fun r => (r.1, [])
  | .elsewhere call => (call.exec db g).map fun g => (g, [])

/-- A run of the mounted database. -/
abbrev MountRun : Globals × List (Handle w) →
    List (Event (HandleCall w) (HandleReply w) (MountEvent w)) → Globals × List (Handle w) → Prop :=
  Events (Handle.call db) (MountEvent.exec db)

end Calls

/-! ## What a handle is for -/

/-- A text with a position, and the size that the database has for it. -/
structure TextFile (w : FileWidth) where
  text : CString
  size : Nat
  pos : w.Word

section Abstract

variable {w : FileWidth}

/-- Where a seek goes. -/
def TextFile.target (f : TextFile w) (off : w.Word) : Whence → Option w.Word
  | .seekSet => some off
  | .seekCur => some (off + f.pos)
  | .seekEnd => some (off + BitVec.ofNat w.bits f.size)
  | .other => none

/-- A text file replies. -/
def TextFile.step (f : TextFile w) : HandleCall w → Option (TextFile w) × HandleReply w
  | .file (.read nbytes _) =>
    let dest := chunk f.text.chars f.pos.toNat nbytes.toNat
    (some { f with pos := f.pos + BitVec.ofNat w.bits dest.length }, .file ⟨dest.length, dest⟩)
  | .file (.lseek off whence) =>
    match f.target off whence with
    | some target =>
      if target.toInt < 0 then (some f, .file ⟨einval, []⟩)
      else (some { f with pos := target }, .file ⟨target.toInt, []⟩)
    | none => (some f, .file ⟨einval, []⟩)
  | .fstat => (some f, .stat ⟨1, .reg, BitVec.ofNat w.bits f.size, BitVec.ofNat w.bits f.size, 1⟩)
  | .write _ => (some f, .code ebadf)
  | .close => (none, .code 0)
  | .readdir _ _ => (some f, .code ebadf)

/-- A directory gives the names that are left, and 0 behind the last one. -/
def dirStep (names : List CString) : HandleCall w → Option (List CString) × HandleReply w
  | .readdir _ _ =>
    match names with
    | name :: names => (some names, .entry name)
    | [] => (some [], .code 0)
  | .close => (none, .code 0)
  | _ => (some names, .code ebadf)

/-- The calls that a file takes. -/
def fileDue (f : Option (TextFile w)) : HandleCall w → Prop
  | .file _ | .fstat | .write _ | .close => f.isSome
  | .readdir _ _ => False

/-- The calls that a directory takes. -/
def dirDue (names : Option (List CString)) : HandleCall w → Prop
  | .readdir _ _ | .close => names.isSome
  | .file _ | .fstat | .write _ => False

/-- The machine of something that can be closed. -/
def untilClosed {α : Type} (step : α → HandleCall w → Option α × HandleReply w) :
    Option α → HandleCall w → Option α × HandleReply w
  | some a, call => step a call
  | none, _ => (none, .code ebadf)

end Abstract

/-! ## Values that stay the same -/

section Statement

variable (db : Db)

/-- The text of a leaf that nothing changes, and the size that the database has for it. -/
inductive FileText : DbNode → CString → Nat → Prop where
  | leaf {flIdx subIdx : UInt8} {text : CString} {size : Nat} (h : LeafText db flIdx subIdx text)
      (hsize : ∀ g, dbNodeGetSize db g (.fl flIdx subIdx false) = .ok size) :
      FileText (.fl flIdx subIdx false) text size
  | deviceClass {i : Nat} {r : SaulReg} (hr : db.env.saulReg[i]? = some r)
      (hfits : (db.env.saulClassToStr r.type).length < dcafsMaxStrLen) :
      FileText (.saul (some i) .field) (db.env.saulClassToStr r.type) 0

/-- The names of the children of a folder that nothing changes. -/
inductive DirNames : DbNode → List CString → Prop where
  | table {node : DbNode} (hn : TableNode db node) (hpos : node.withPos 0 = node)
      (hlen : (tableRows db node).length ≤ 255)
      (hrows : ∀ row ∈ tableRows db node,
        row.type ≠ .null ∧ row.name.toCString.length < dbNodeNameMax) :
      DirNames node ((tableRows db node).map fun row => row.name.toCString)
  | processes (hfirst : db.env.FirstThread)
      (hshort : ∀ pid ∈ db.env.pidsFrom kernelPidFirst,
        (db.env.threadName pid).length < dbNodeNameMax) :
      DirNames dbNewPsNode ((db.env.pidsFrom kernelPidFirst).map db.env.threadName)
  | devices (hshort : ∀ i < db.env.saulReg.length, (db.env.deviceName i).length < dbNodeNameMax) :
      DirNames (dbNewSaulNode db.env) ((List.range' 0 db.env.saulReg.length).map db.env.deviceName)
  | device (i : Nat) : DirNames (.saul (some i) .device) [.lit "class"]
  | ifaces (hshort : ∀ i < db.env.ifaces.length, (db.env.ifaceName i).length < dbNodeNameMax) :
      DirNames (.netif (db.env.netifIter none) .root)
        ((List.range' 0 db.env.ifaces.length).map db.env.ifaceName)

end Statement

/-! ## Nothing else is touched -/

section Proofs

variable {db : Db} {w : FileWidth}

/-- The value of a leaf is read without leaving the states in which `_saul_field_count` is 0. -/
theorem readValue_keeps {g g' : Globals} {node : DbNode} {data : Buf dcafsMaxStrLen}
    {v : Option (Buf dcafsMaxStrLen × Nat)} (hg : g.SaulAtRest)
    (h : dcafsReadValue db g node data = .ok (g', v)) : g'.SaulAtRest := by
  unfold dcafsReadValue at h
  obtain ⟨type, -, h⟩ := bind_eq_ok.mp h
  cases type with
  | int =>
    obtain ⟨⟨g₁, val⟩, hval, h⟩ := bind_eq_ok.mp h
    obtain ⟨text, -, h⟩ := bind_eq_ok.mp h
    obtain ⟨rfl, -⟩ := Prod.mk.inj (Except.ok.inj h)
    exact kept_saulFieldCount.intValue hval hg
  | float =>
    obtain ⟨val, -, h⟩ := bind_eq_ok.mp h
    obtain ⟨text, -, h⟩ := bind_eq_ok.mp h
    obtain ⟨rfl, -⟩ := Prod.mk.inj (Except.ok.inj h)
    exact hg
  | str =>
    obtain ⟨text, -, h⟩ := bind_eq_ok.mp h
    obtain ⟨rfl, -⟩ := Prod.mk.inj (Except.ok.inj h)
    exact hg
  | inner | null =>
    obtain ⟨rfl, -⟩ := Prod.mk.inj (Except.ok.inj h)
    exact hg

theorem fileCall_keeps {g : Globals} {filp : VfsFile w} {call : FileCall w}
    {r : FileState w × FileReply} (hg : g.SaulAtRest) (h : FileState.call db ⟨g, filp⟩ call = .ok r) :
    r.1.g.SaulAtRest := by
  rcases call with ⟨nbytes, data⟩ | ⟨off, whence⟩
  · obtain ⟨⟨g', filp', ret, dest⟩, hread, h⟩ := bind_eq_ok.mp h
    obtain rfl := Except.ok.inj h
    unfold dcafsRead at hread
    obtain ⟨⟨g₁, value⟩, hvalue, hread⟩ := bind_eq_ok.mp hread
    have hg₁ := readValue_keeps hg hvalue
    rcases value with _ | ⟨b, size⟩
    · obtain ⟨rfl, -⟩ := Prod.mk.inj (Except.ok.inj hread)
      exact hg₁
    · dsimp only at hread
      split_ifs at hread
      · obtain ⟨rfl, -⟩ := Prod.mk.inj (Except.ok.inj hread)
        exact hg₁
      · obtain ⟨_, -, hread⟩ := bind_eq_ok.mp hread
        obtain ⟨rfl, -⟩ := Prod.mk.inj (Except.ok.inj hread)
        exact hg₁
      · obtain ⟨_, -, hread⟩ := bind_eq_ok.mp hread
        obtain ⟨rfl, -⟩ := Prod.mk.inj (Except.ok.inj hread)
        exact hg₁
  · obtain ⟨⟨filp', ret⟩, -, h⟩ := bind_eq_ok.mp h
    obtain rfl := Except.ok.inj h
    exact hg

theorem readdir_keeps {g : Globals} {dirp : VfsDir} {node : DbNode} {dName : NameBuf}
    {r : Globals × VfsDir × Int × NameBuf} (hg : g.SaulAtRest)
    (h : dcafsReaddir db g dirp node dName = .ok r) : r.1.SaulAtRest := by
  unfold dcafsReaddir at h
  obtain ⟨c, hc, h⟩ := bind_eq_ok.mp h
  have hc' : c.g.SaulAtRest := kept_saulFieldCount.child (childStep_of_ok hc) hg
  obtain ⟨isNull, -, h⟩ := bind_eq_ok.mp h
  split_ifs at h
  · obtain rfl := Except.ok.inj h
    exact hc'
  · obtain ⟨name, -, h⟩ := bind_eq_ok.mp h
    obtain rfl := Except.ok.inj h
    exact hc'

theorem call_keeps {g g' : Globals} {handle handle' : Handle w} {call : HandleCall w}
    {reply : HandleReply w} (hg : g.SaulAtRest)
    (h : handle.call db g call = some (g', handle', reply)) : g'.SaulAtRest := by
  cases handle with
  | file filp =>
    cases call with
    | file call =>
      obtain ⟨r, hr, heq⟩ := Option.map_eq_some_iff.mp h
      obtain ⟨rfl, -⟩ := Prod.mk.inj heq
      exact fileCall_keeps hg (toOption_eq_some.mp hr)
    | fstat =>
      obtain ⟨st, -, heq⟩ := Option.map_eq_some_iff.mp h
      obtain ⟨rfl, -⟩ := Prod.mk.inj heq
      exact hg
    | write src | close =>
      obtain ⟨rfl, -⟩ := Prod.mk.inj (Option.some.inj h)
      exact hg
    | readdir node dName => cases h
  | dir dirp =>
    cases call with
    | readdir node dName =>
      obtain ⟨r, hr, heq⟩ := Option.map_eq_some_iff.mp h
      obtain ⟨rfl, -⟩ := Prod.mk.inj heq
      exact readdir_keeps hg (toOption_eq_some.mp hr)
    | close =>
      obtain ⟨rfl, -⟩ := Prod.mk.inj (Option.some.inj h)
      exact hg
    | file call | fstat | write src => cases h
  | closed => cases call <;> cases h

/-- A lookup, and behind it nothing that changes the shared variables. -/
theorem lookup_keeps {α : Type} {fuel : Nat} {g : Globals} {path : CString} {child : DbNode}
    {nameBuf : NameBuf} {f : Found → Res (Globals × α)} {r : Globals × α} (hg : g.SaulAtRest)
    (h : dbFindNodeByPath db fuel g path child nameBuf >>= f = .ok r)
    (hf : ∀ found, f found = .ok r → r.1 = found.g) : r.1.SaulAtRest := by
  obtain ⟨found, hfound, h⟩ := bind_eq_ok.mp h
  rw [hf found h]
  exact kept_saulFieldCount.find hfound hg

theorem open_keeps {fuel : Nat} {g : Globals} {name : CString} {flags : Nat} {child : DbNode}
    {nameBuf : NameBuf} {r : Globals × Int × Option (VfsFile w)} (hg : g.SaulAtRest)
    (h : dcafsOpen db w fuel g name flags child nameBuf = .ok r) : r.1.SaulAtRest := by
  unfold dcafsOpen at h
  split_ifs at h
  · obtain rfl := Except.ok.inj h
    exact hg
  · refine lookup_keeps hg h fun found hf => ?_
    split_ifs at hf
    · rw [← Except.ok.inj hf]
    · rw [← Except.ok.inj hf]

theorem opendir_keeps {fuel : Nat} {g : Globals} {dirname : CString} {child : DbNode}
    {nameBuf : NameBuf} {r : Globals × Int × Option VfsDir} (hg : g.SaulAtRest)
    (h : dcafsOpendir db fuel g dirname child nameBuf = .ok r) : r.1.SaulAtRest := by
  refine lookup_keeps hg h fun found hf => ?_
  split_ifs at hf
  · rw [← Except.ok.inj hf]
  · rw [← Except.ok.inj hf]

theorem stat_keeps {fuel : Nat} {g : Globals} {name : CString} {child : DbNode}
    {nameBuf : NameBuf} {r : Globals × Int × Option (Stat w)} (hg : g.SaulAtRest)
    (h : dcafsStat db w fuel g name child nameBuf = .ok r) : r.1.SaulAtRest := by
  refine lookup_keeps hg h fun found hf => ?_
  split_ifs at hf
  · rw [← Except.ok.inj hf]
  · obtain ⟨st, -, hf⟩ := bind_eq_ok.mp hf
    rw [← Except.ok.inj hf]

theorem event_keeps {g g' : Globals} {event : MountEvent w} {made : List (Handle w)}
    (hg : g.SaulAtRest) (h : event.exec db g = some (g', made)) : g'.SaulAtRest := by
  cases event with
  | openFile name flags stack fuel =>
    obtain ⟨r, hr, heq⟩ := Option.map_eq_some_iff.mp h
    obtain ⟨rfl, -⟩ := Prod.mk.inj heq
    exact open_keeps hg (toOption_eq_some.mp hr)
  | opendir dirname stack fuel =>
    obtain ⟨r, hr, heq⟩ := Option.map_eq_some_iff.mp h
    obtain ⟨rfl, -⟩ := Prod.mk.inj heq
    exact opendir_keeps hg (toOption_eq_some.mp hr)
  | stat name stack fuel =>
    obtain ⟨r, hr, heq⟩ := Option.map_eq_some_iff.mp h
    obtain ⟨rfl, -⟩ := Prod.mk.inj heq
    exact stat_keeps hg (toOption_eq_some.mp hr)
  | elsewhere call =>
    obtain ⟨g₁, hg₁, heq⟩ := Option.map_eq_some_iff.mp h
    obtain ⟨rfl, -⟩ := Prod.mk.inj heq
    exact saulAtRest_exec hg hg₁

theorem keepsShared_mount :
    KeepsShared (Handle.call db (w := w)) (MountEvent.exec db) Globals.SaulAtRest where
  call _ _ _ _ _ _ hg h := call_keeps hg h
  other _ _ _ _ hg h := event_keeps hg h

/-! ## Files -/

namespace FileText

variable {node : DbNode} {text : CString} {size : Nat}

theorem length_le (h : FileText db node text size) : text.length ≤ dcafsMaxStrLen := by
  cases h with
  | leaf h hsize => exact Nat.le_trans (Nat.le_of_lt h.length_lt) (by decide)
  | deviceClass hr hfits => exact Nat.le_of_lt hfits

theorem readValue (h : FileText db node text size) {g : Globals} (hg : g.SaulAtRest)
    (data : Buf dcafsMaxStrLen) :
    ∃ b, dcafsReadValue db g node data = .ok (g, some (b, text.length)) ∧
      b.chars.take text.length = text.chars := by
  cases h with
  | leaf h hsize => exact h.readValue g data
  | @deviceClass i r hr hfits =>
    obtain ⟨b, hb, hs⟩ := (showsClass hg hr).value dcafsMaxStrLen dcafsMaxStrLen data hfits
    refine ⟨b, ?_, (List.prefix_iff_eq_take.mp hs.begins).symm⟩
    simp only [dcafsReadValue, (showsClass hg hr).type, ok_bind, hb, pure_eq_ok]

theorem getSize (h : FileText db node text size) (g : Globals) : dbNodeGetSize db g node = .ok size := by
  cases h with
  | leaf h hsize => exact hsize g
  | deviceClass hr hfits => rfl

theorem writeStat (h : FileText db node text size) (g : Globals) :
    dcafsWriteStat db w g node
      = .ok ⟨1, .reg, BitVec.ofNat w.bits size, BitVec.ofNat w.bits size, 1⟩ := by
  obtain ⟨type, htype, hreg⟩ : ∃ type, dbNodeGetType db g node = .ok type ∧
      (type = .int ∨ type = .str) := by
    cases h with
    | leaf h hsize =>
      cases h with
      | int he hs htype hf hv => exact ⟨_, static_type he hs g, Or.inl htype⟩
      | str he hs htype hf hlen hget => exact ⟨_, static_type he hs g, Or.inr htype⟩
    | deviceClass hr hfits => exact ⟨.str, rfl, Or.inr rfl⟩
  have hsize := h.getSize g
  rcases hreg with rfl | rfl
  · simp only [dcafsWriteStat, dbNodeIsNull, htype, hsize, ok_bind]
    rfl
  · simp only [dcafsWriteStat, dbNodeIsNull, htype, hsize, ok_bind]
    rfl

/-- A read gives the next part of the text. -/
theorem read (h : FileText db node text size) {g : Globals} (hg : g.SaulAtRest) {pos : w.Word}
    (hpos : 0 ≤ pos.toInt) (nbytes : w.Word) (data : Buf dcafsMaxStrLen) :
    ∃ pos', FileState.call db ⟨g, ⟨pos, node⟩⟩ (.read nbytes data)
        = .ok (⟨g, ⟨pos', node⟩⟩, ⟨(chunk text.chars pos.toNat nbytes.toNat).length,
            chunk text.chars pos.toNat nbytes.toNat⟩) ∧ 0 ≤ pos'.toInt ∧
      pos' = pos + BitVec.ofNat w.bits (chunk text.chars pos.toNat nbytes.toNat).length := by
  obtain ⟨b, hvalue, htake⟩ := h.readValue hg data
  have hvalue' : dcafsReadValue db g (⟨pos, node⟩ : VfsFile w).node data
      = .ok (g, some (b, text.length)) := hvalue
  obtain ⟨pos', hread, hpos', hmoved⟩ := dcafsRead_eq hvalue' h.length_le hpos nbytes
  rw [htake] at hread hmoved
  refine ⟨pos', ?_, hpos', ?_⟩
  · simp only [FileState.call, hread, ok_bind, pure_eq_ok]
  · -- the sum does not wrap around, since the new position is a word
    have hlt := pos'.isLt
    have hsum : pos'.toNat = pos.toNat + (chunk text.chars pos.toNat nbytes.toNat).length := hmoved
    have hlen : (chunk text.chars pos.toNat nbytes.toNat).length < 2 ^ w.bits := by omega
    refine BitVec.eq_of_toNat_eq ?_
    rw [BitVec.toNat_add, BitVec.toNat_ofNat, Nat.mod_eq_of_lt hlen, Nat.mod_eq_of_lt (by omega)]
    exact hsum

/-- A seek goes where the text file says. -/
theorem lseek (h : FileText db node text size) (g : Globals) (pos off : w.Word) (whence : Whence) :
    FileState.call db ⟨g, ⟨pos, node⟩⟩ (.lseek off whence)
      = .ok (match TextFile.target ⟨text, size, pos⟩ off whence with
        | some target =>
          if target.toInt < 0 then (⟨g, ⟨pos, node⟩⟩, ⟨einval, []⟩)
          else (⟨g, ⟨target, node⟩⟩, ⟨target.toInt, []⟩)
        | none => (⟨g, ⟨pos, node⟩⟩, ⟨einval, []⟩)) := by
  have hsize := h.getSize g
  cases whence with
  | seekSet | seekCur =>
    simp only [FileState.call, dcafsLseek, TextFile.target, pure_eq_ok, ok_bind]
    split_ifs
    · rfl
    · rfl
  | seekEnd =>
    simp only [FileState.call, dcafsLseek, TextFile.target, hsize, pure_eq_ok, ok_bind]
    split_ifs
    · rfl
    · rfl
  | other => rfl

end FileText

/-- A handle of a file that stands for a text file. -/
def ReadsText (db : Db) : Handle w → Option (TextFile w) → Prop
  | .file filp, some f => FileText db filp.node f.text f.size ∧ filp.pos = f.pos ∧ 0 ≤ f.pos.toInt
  | .closed, none => True
  | _, _ => False

/-- What a call on an open file comes back with. -/
theorem readsText_reply {g g' : Globals} {handle handle' : Handle w} {a : Option (TextFile w)}
    {call : HandleCall w} {reply : HandleReply w} (hg : g.SaulAtRest) (hreads : ReadsText db handle a)
    (h : handle.call db g call = some (g', handle', reply)) :
    ReadsText db handle' (untilClosed TextFile.step a call).1 ∧
      reply = (untilClosed TextFile.step a call).2 := by
  rcases handle with ⟨pos, node⟩ | dirp | _
  · rcases a with _ | ⟨text, size, fpos⟩
    · exact hreads.elim
    · obtain ⟨htext, hposEq, hpos⟩ := hreads
      obtain rfl : pos = fpos := hposEq
      cases call with
      | file call =>
        obtain ⟨r, hr, heq⟩ := Option.map_eq_some_iff.mp h
        have hr' := toOption_eq_some.mp hr
        obtain ⟨-, heq⟩ := Prod.mk.inj heq
        obtain ⟨rfl, rfl⟩ := Prod.mk.inj heq
        rcases call with ⟨nbytes, data⟩ | ⟨off, whence⟩
        · obtain ⟨pos', hcall, hpos', rfl⟩ := htext.read hg hpos nbytes data
          rw [hcall] at hr'
          obtain rfl := Except.ok.inj hr'
          exact ⟨⟨htext, rfl, hpos'⟩, rfl⟩
        · rw [htext.lseek] at hr'
          obtain rfl := Except.ok.inj hr'
          simp only [untilClosed, TextFile.step]
          split
          · split_ifs with hneg
            · exact ⟨⟨htext, rfl, hpos⟩, rfl⟩
            · exact ⟨⟨htext, rfl, Int.not_lt.mp hneg⟩, rfl⟩
          · exact ⟨⟨htext, rfl, hpos⟩, rfl⟩
      | fstat =>
        obtain ⟨st, hst, heq⟩ := Option.map_eq_some_iff.mp h
        obtain ⟨-, heq⟩ := Prod.mk.inj heq
        obtain ⟨rfl, rfl⟩ := Prod.mk.inj heq
        have hst' : dcafsWriteStat db w g node = .ok st := toOption_eq_some.mp hst
        rw [htext.writeStat] at hst'
        obtain rfl := Except.ok.inj hst'
        exact ⟨⟨htext, rfl, hpos⟩, rfl⟩
      | write src =>
        obtain ⟨-, heq⟩ := Prod.mk.inj (Option.some.inj h)
        obtain ⟨rfl, rfl⟩ := Prod.mk.inj heq
        exact ⟨⟨htext, rfl, hpos⟩, rfl⟩
      | close =>
        obtain ⟨-, heq⟩ := Prod.mk.inj (Option.some.inj h)
        obtain ⟨rfl, rfl⟩ := Prod.mk.inj heq
        exact ⟨trivial, rfl⟩
      | readdir node dName => cases h
  · exact hreads.elim
  · cases call <;> cases h

/-- **An open file obeys the text file.** -/
theorem obeys_textFile :
    Obeys (Handle.call db (w := w)) Globals.SaulAtRest (untilClosed TextFile.step) fileDue
      (ReadsText db) where
  reply := fun _ _ _ _ _ _ _ => readsText_reply
  takes := by
    intro g handle a call hg hreads hdue
    rcases handle with ⟨pos, node⟩ | dirp | _
    · rcases a with _ | ⟨text, size, fpos⟩
      · exact hreads.elim
      · obtain ⟨htext, hposEq, hpos⟩ := hreads
        obtain rfl : pos = fpos := hposEq
        cases call with
        | file call =>
          rcases call with ⟨nbytes, data⟩ | ⟨off, whence⟩
          · obtain ⟨pos', hcall, -⟩ := htext.read hg hpos nbytes data
            simp only [Handle.call, hcall]
            rfl
          · simp only [Handle.call, htext.lseek]
            rfl
        | fstat =>
          simp only [Handle.call, dcafsFstat, htext.writeStat]
          rfl
        | write src | close => rfl
        | readdir node dName => exact hdue.elim
    · exact hreads.elim
    · rcases a with _ | f
      · cases call <;> cases hdue
      · exact hreads.elim

/-! ## Directories -/

/-- The child is there and has the name, in all states. -/
def StaysNamed (db : Db) (item : DbNode) (name : CString) : Prop :=
  ∀ g : Globals, g.SaulAtRest → ∀ node, Offers db ⟨g, node, item⟩ name

/-- A folder has the names left. -/
def NamesLeft (db : Db) (node : DbNode) (names : List CString) : Prop :=
  ∃ items, Supplies (takeChild db) (fun around => around.1.SaulAtRest) .null node items ∧
    List.Forall₂ (StaysNamed db) items names

theorem forall₂_staysNamed {ι : Type} {item : ι → DbNode} {name : ι → CString} {is : List ι}
    (h : ∀ i ∈ is, StaysNamed db (item i) (name i)) :
    List.Forall₂ (StaysNamed db) (is.map item) (is.map name) := by
  rw [List.forall₂_map_left_iff, List.forall₂_map_right_iff, List.forall₂_same]
  exact h

theorem staysNamed_row {node : DbNode} (hn : TableNode db node) (hlen : (tableRows db node).length ≤ 255)
    {row : TableRow} (hrow : row ∈ tableRows db node) (htype : row.type ≠ .null)
    (hlt : row.name.toCString.length < dbNodeNameMax) : StaysNamed db row.node row.name.toCString := by
  obtain ⟨i, hi, hget⟩ := List.mem_iff_getElem.mp hrow
  have hi' : (UInt8.ofNat i).toNat = i := toNat_ofNat (by omega)
  have hat : (tableRows db node)[(UInt8.ofNat i).toNat]? = some row := by
    rw [hi', List.getElem?_eq_getElem hi, hget]
  intro g _ node'
  refine ⟨?_, names_row hn hat hlt g⟩
  rw [dbNodeIsNull, row_type hn hat g]
  simp [htype]

/-- **A folder that nothing changes has its names left.** -/
theorem DirNames.left {node : DbNode} {names : List CString} (h : DirNames db node names) :
    NamesLeft db node names := by
  cases h with
  | table hn hpos hlen hrows =>
    have hsupplies := supplies_rows hn hlen (k := 0) List.drop_zero
    rw [hpos] at hsupplies
    refine ⟨_, hsupplies.mono fun _ _ => trivial, forall₂_staysNamed fun row hrow => ?_⟩
    obtain ⟨htype, hlt⟩ := hrows row hrow
    exact staysNamed_row hn hlen hrow htype hlt
  | processes hfirst hshort =>
    have hend : db.env.kernelPidLast < kernelPidFirst + db.env.kernelPidLast :=
      Nat.lt_add_of_pos_left (by decide)
    refine ⟨_, (supplies_processes _ (Or.inl hfirst) hend).mono fun _ _ => trivial,
      forall₂_staysNamed fun pid hpid g _ node => ?_⟩
    exact offers_process (mem_pidsFrom.mp hpid) (hshort pid hpid) g node
  | devices hshort =>
    refine ⟨_, (supplies_devices _ (Nat.zero_add _)).mono fun _ _ => trivial,
      forall₂_staysNamed fun i hi g _ node => ?_⟩
    have hi' : i < db.env.saulReg.length := by simpa using hi
    exact offers_device hi' (hshort i hi') g node
  | device i =>
    refine ⟨_, supplies_device i, .cons (fun g hg node => ⟨rfl, names_saulField i hg⟩) .nil⟩
  | ifaces hshort =>
    refine ⟨_, (supplies_ifaces _ (Nat.zero_add _)).mono fun _ _ => trivial,
      forall₂_staysNamed fun i hi g _ node => ?_⟩
    have hi' : i < db.env.ifaces.length := by simpa using hi
    exact offers_iface hi' (hshort i hi') g node

/-- A handle of a directory that stands for a list of names. -/
def ListsNames (db : Db) : Handle w → Option (List CString) → Prop
  | .dir dirp, some names => NamesLeft db dirp.node names
  | .closed, none => True
  | _, _ => False

/-- The next entry, or the end of the directory. -/
theorem readdir_eq {node : DbNode} {names : List CString} (h : NamesLeft db node names)
    {g : Globals} (hg : g.SaulAtRest) (out : DbNode) (dName : NameBuf) :
    ∃ r, dcafsReaddir db g ⟨node⟩ out dName = .ok r ∧
      match names with
      | [] => r.2.2.1 = 0 ∧ NamesLeft db r.2.1.node []
      | name :: names => r.2.2.1 = 1 ∧ r.2.2.2.str = name ∧ NamesLeft db r.2.1.node names := by
  obtain ⟨items, hsupplies, hnamed⟩ := h
  cases hnamed with
  | nil =>
    cases hsupplies with
    | nil hnext =>
      obtain ⟨c, hc, hout⟩ := bind_eq_ok.mp (hnext (g, out) hg)
      obtain ⟨hnode, hchild⟩ := Prod.mk.inj (Except.ok.inj hout)
      have hnull : dbNodeIsNull db c.g c.child = .ok true := by
        rw [hchild]
        rfl
      refine ⟨(c.g, ⟨c.node⟩, 0, dName), ?_, rfl, [], ?_, .nil⟩
      · rw [dcafsReaddir, hc, ok_bind, hnull, ok_bind, if_pos rfl, pure_eq_ok]
      · rw [hnode]
        exact .nil hnext
  | @cons item name items names hitem hrest =>
    cases hsupplies with
    | @cons _ t _ _ hnext hleft =>
      obtain ⟨c, hc, hout⟩ := bind_eq_ok.mp (hnext (g, out) hg)
      obtain ⟨hnode, hchild⟩ := Prod.mk.inj (Except.ok.inj hout)
      have hg' : c.g.SaulAtRest := kept_saulFieldCount.child (childStep_of_ok hc) hg
      obtain ⟨hnotNull, hname⟩ := hitem c.g hg' c.node
      rw [← hchild] at hnotNull hname
      obtain ⟨b, hb, hs⟩ := hname dName
      refine ⟨(c.g, ⟨c.node⟩, 1, b), ?_, rfl, hs.str_eq, items, ?_, hrest⟩
      · rw [dcafsReaddir, hc, ok_bind, hnotNull, ok_bind, if_neg (by simp), hb, ok_bind, pure_eq_ok]
      · rw [hnode]
        exact hleft

/-- What a call on an open directory comes back with. -/
theorem listsNames_reply {g g' : Globals} {handle handle' : Handle w} {a : Option (List CString)}
    {call : HandleCall w} {reply : HandleReply w} (hg : g.SaulAtRest) (hlists : ListsNames db handle a)
    (h : handle.call db g call = some (g', handle', reply)) :
    ListsNames db handle' (untilClosed dirStep a call).1 ∧
      reply = (untilClosed dirStep a call).2 := by
  rcases handle with filp | ⟨node⟩ | _
  · exact hlists.elim
  · rcases a with _ | names
    · exact hlists.elim
    · cases call with
      | readdir out dName =>
        obtain ⟨r, hr, hstep⟩ := readdir_eq hlists hg out dName
        simp only [Handle.call, hr] at h
        obtain ⟨-, heq⟩ := Prod.mk.inj (Option.some.inj h)
        obtain ⟨rfl, rfl⟩ := Prod.mk.inj heq
        rcases names with _ | ⟨name, names⟩
        · obtain ⟨hret, hleft⟩ := hstep
          exact ⟨hleft, if_pos hret⟩
        · obtain ⟨hret, rfl, hleft⟩ := hstep
          exact ⟨hleft, if_neg (by rw [hret]; decide)⟩
      | close =>
        obtain ⟨-, heq⟩ := Prod.mk.inj (Option.some.inj h)
        obtain ⟨rfl, rfl⟩ := Prod.mk.inj heq
        exact ⟨trivial, rfl⟩
      | file call | fstat | write src => cases h
  · cases call <;> cases h

/-- **An open directory obeys its list of names.** -/
theorem obeys_names :
    Obeys (Handle.call db (w := w)) Globals.SaulAtRest (untilClosed dirStep) dirDue
      (ListsNames db) where
  reply := fun _ _ _ _ _ _ _ => listsNames_reply
  takes := by
    intro g handle a call hg hlists hdue
    rcases handle with filp | ⟨node⟩ | _
    · exact hlists.elim
    · rcases a with _ | names
      · exact hlists.elim
      · cases call with
        | readdir out dName =>
          obtain ⟨r, hr, -⟩ := readdir_eq hlists hg out dName
          simp only [Handle.call, hr]
          rfl
        | close => rfl
        | file call | fstat | write src => exact hdue.elim
    · rcases a with _ | names
      · cases call <;> cases hdue
      · exact hlists.elim

end Proofs

/-! ## Any number of handles -/

section Runs

variable {db : Db} {w : FileWidth} {neighbours : List NeighborEntryl} {x y : Globals × List (Handle w)}
  {before es : List (Event (HandleCall w) (HandleReply w) (MountEvent w))} {i : Nat} {node : DbNode}

/--
**An open file is a text with a position, whatever else is open.** From the moment it is opened, all
its calls get the replies of the text file, with any calls on other files and directories, any
lookups and any use of the database by other threads in between; and it never fails to take a call.
-/
theorem files_apart (hbefore : MountRun db (.boot neighbours, []) before x)
    (hi : x.2[i]? = some (.file ⟨0#w.bits, node⟩)) {text : CString} {size : Nat}
    (htext : FileText db node text size) (hrun : MountRun db x es y) :
    callsOn i es = answered (untilClosed TextFile.step) (some ⟨text, size, 0#w.bits⟩)
        ((callsOn i es).map Prod.fst) ∧
      ∃ handle, y.2[i]? = some handle ∧ ∀ call,
        fileDue (behind (untilClosed TextFile.step) (some ⟨text, size, 0#w.bits⟩)
          ((callsOn i es).map Prod.fst)) call → (handle.call db y.1 call).isSome :=
  hrun.follows keepsShared_mount obeys_textFile (hbefore.keeps keepsShared_mount rfl) hi
    ⟨htext, rfl, start_nonneg⟩

/--
**An open directory is a list of names, whatever else is open.** Its calls give the names of its
children in their order and then 0 for ever, in every run as in `files_apart`.
-/
theorem dirs_apart (hbefore : MountRun db (.boot neighbours, []) before x)
    (hi : x.2[i]? = some (.dir ⟨node⟩)) {names : List CString} (hnames : DirNames db node names)
    (hrun : MountRun db x es y) :
    callsOn i es = answered (untilClosed dirStep) (some names) ((callsOn i es).map Prod.fst) ∧
      ∃ handle, y.2[i]? = some handle ∧ ∀ call,
        dirDue (behind (untilClosed dirStep) (some names) ((callsOn i es).map Prod.fst)) call →
          (handle.call db y.1 call).isSome :=
  hrun.follows keepsShared_mount obeys_names (hbefore.keeps keepsShared_mount rfl) hi hnames.left

end Runs

/-! ## The small board -/

/-- A system with 32 bits. -/
abbrev smallWidth : FileWidth := ⟨32, by decide⟩

/-- The name of the board and the list of the processes are open. -/
def smallOpen : Globals × List (Handle smallWidth) :=
  ({}, [.file ⟨0, .fl 0 0 false⟩, .dir ⟨dbNewPsNode⟩])

theorem smallOpen_run : MountRun smallDb (.boot [], [])
    [.other (.openFile (.lit "/board/name") 0 ⟨.null, Buf.zero _, Buf.zero _⟩ 8),
      .other (.opendir (.lit "/runtime/ps") ⟨.null, Buf.zero _, Buf.zero _⟩ 8)] smallOpen := by
  have hopen : MountEvent.exec smallDb (.boot [])
      (.openFile (.lit "/board/name") 0 ⟨.null, Buf.zero _, Buf.zero _⟩ 8)
      = some ({}, [(.file ⟨0, .fl 0 0 false⟩ : Handle smallWidth)]) := by decide +kernel
  have hopendir : MountEvent.exec smallDb {}
      (.opendir (.lit "/runtime/ps") ⟨.null, Buf.zero _, Buf.zero _⟩ 8)
      = some ({}, [(.dir ⟨dbNewPsNode⟩ : Handle smallWidth)]) := by decide +kernel
  exact .other hopen (.other hopendir (.nil _))

/-- Two reads with a call on the directory in between. -/
def smallCalls : List (Event (HandleCall smallWidth) (HandleReply smallWidth)
    (MountEvent smallWidth)) :=
  [.call 0 (.file (.read 3 (Buf.zero _))) (.file ⟨3, "nat".toList⟩),
    .call 1 (.readdir .null (Buf.zero _)) (.entry (.lit "idle")),
    .call 0 (.file (.read 9 (Buf.zero _))) (.file ⟨3, "ive".toList⟩)]

/-- And what is left behind them. -/
def smallRead : Globals × List (Handle smallWidth) :=
  ({}, [.file ⟨6, .fl 0 0 false⟩, .dir ⟨.ps 2 .root⟩])

theorem smallCalls_run : MountRun smallDb smallOpen smallCalls smallRead := by
  have hread : Handle.call smallDb {} (.file ⟨0, .fl 0 0 false⟩ : Handle smallWidth)
      (.file (.read 3 (Buf.zero _)))
      = some ({}, .file ⟨3, .fl 0 0 false⟩, .file ⟨3, "nat".toList⟩) := by decide +kernel
  have hreaddir : Handle.call smallDb {} (.dir ⟨dbNewPsNode⟩ : Handle smallWidth)
      (.readdir .null (Buf.zero _))
      = some ({}, .dir ⟨.ps 2 .root⟩, .entry (.lit "idle")) := by decide +kernel
  have hread' : Handle.call smallDb {} (.file ⟨3, .fl 0 0 false⟩ : Handle smallWidth)
      (.file (.read 9 (Buf.zero _)))
      = some ({}, .file ⟨6, .fl 0 0 false⟩, .file ⟨3, "ive".toList⟩) := by decide +kernel
  exact .call rfl hread (.call rfl hreaddir (.call rfl hread' (.nil _)))

theorem fileText_small : FileText smallDb (.fl 0 0 false) (.lit "native") 6 := by
  have hsize : dbNodeGetSize smallDb {} (.fl 0 0 false) = .ok 6 := by decide +kernel
  exact .leaf (leafText_board rfl rfl rfl rfl (fun _ => rfl) (by decide)) fun _ => hsize

theorem files_apart_small :
    callsOn 0 smallCalls = answered (untilClosed TextFile.step) (some ⟨.lit "native", 6, 0#32⟩)
        ((callsOn 0 smallCalls).map Prod.fst) ∧
      ∃ handle, smallRead.2[0]? = some handle ∧ ∀ call,
        fileDue (behind (untilClosed TextFile.step) (some ⟨.lit "native", 6, 0#32⟩)
          ((callsOn 0 smallCalls).map Prod.fst)) call →
            (handle.call smallDb smallRead.1 call).isSome :=
  files_apart smallOpen_run rfl fileText_small smallCalls_run

theorem dirs_apart_small :
    callsOn 1 smallCalls = answered (untilClosed dirStep) (some [.lit "idle", .lit "main"])
        ((callsOn 1 smallCalls).map Prod.fst) ∧
      ∃ handle, smallRead.2[1]? = some handle ∧ ∀ call,
        dirDue (behind (untilClosed dirStep) (some [.lit "idle", .lit "main"])
          ((callsOn 1 smallCalls).map Prod.fst)) call →
            (handle.call smallDb smallRead.1 call).isSome := by
  have hfirst : smallDb.env.FirstThread := by
    unfold Env.FirstThread Env.Live
    decide
  exact dirs_apart smallOpen_run rfl (.processes hfirst (by decide)) smallCalls_run

end Dca
