import Dca.Db.Node

/-!
# `fs.c`: the database as a file system

A file is a node and a position. Reading a file formats the value of the node each time and copies
a part of the text. `st_size` and the end of a file come from `db_node_get_size`.
-/

namespace Dca

open CLib

/-- `DCAFS_MAX_STR_LEN` -/
def dcafsMaxStrLen : Nat := 128

/-- `DCAFS_FLOAT_PRECISION` -/
def dcafsFloatPrecision : Nat := 7

/-- The width of `off_t` and of `size_t`, of which C promises 16 bits. -/
structure FileWidth where
  bits : Nat
  promised : 16 ≤ bits

/-- `off_t`, and `size_t`, which is read without a sign. -/
abbrev FileWidth.Word (w : FileWidth) := BitVec w.bits

/-- `vfs_file_t` with the node in its `private_data`. -/
structure VfsFile (w : FileWidth) where
  pos : w.Word
  node : DbNode
  deriving DecidableEq

/-- `S_IFDIR` and `S_IFREG`, each readable by all. -/
inductive FileMode where
  | dir | reg
  deriving DecidableEq

/-- `struct stat` -/
structure Stat (w : FileWidth) where
  stNlink : Nat
  stMode : FileMode
  stSize : w.Word
  stBlocks : w.Word
  stBlksize : Nat
  deriving DecidableEq

/-- `SEEK_SET`, `SEEK_CUR`, `SEEK_END`, and the other values of `whence`. -/
inductive Whence where
  | seekSet | seekCur | seekEnd | other
  deriving DecidableEq

/-- `-EINVAL` -/
def einval : Int := -22

/-- `-EROFS` -/
def erofs : Int := -30

/-- `O_ACCMODE` and `O_RDONLY` -/
def oAccmode : Nat := 3

def oRdonly : Nat := 0

variable (db : Db) {w : FileWidth}

/-- `_dcafs_write_stat` -/
def dcafsWriteStat (w : FileWidth) (g : Globals) (node : DbNode) : Res (Stat w) := do
  let isNull ← dbNodeIsNull db g node
  assert !isNull
  let type ← dbNodeGetType db g node
  let size ← dbNodeGetSize db g node
  return {
    stNlink := 1
    stMode := if type = .inner then .dir else .reg
    stSize := BitVec.ofNat w.bits size
    stBlocks := BitVec.ofNat w.bits size
    stBlksize := 1 }

/-- `dcafs_stat`, with what the variables of the lookup hold at first. -/
def dcafsStat (w : FileWidth) (fuel : Nat) (g : Globals) (name : CString) (child : DbNode)
    (nameBuf : NameBuf) : Res (Globals × Int × Option (Stat w)) := do
  let found ← dbFindNodeByPath db fuel g name child nameBuf
  if found.code < 0 then return (found.g, found.code, none)
  return (found.g, 0, some (← dcafsWriteStat db w found.g found.node))

/-- `dcafs_fstat` -/
def dcafsFstat (g : Globals) (filp : VfsFile w) : Res (Stat w) := dcafsWriteStat db w g filp.node

/-- `dcafs_lseek`. The sums wrap around. -/
def dcafsLseek (g : Globals) (filp : VfsFile w) (off : w.Word) (whence : Whence) :
    Res (VfsFile w × Int) := do
  let target ← match whence with
    | .seekSet => pure (some off)
    | .seekCur => pure (some (off + filp.pos))
    | .seekEnd => do pure (some (off + BitVec.ofNat w.bits (← dbNodeGetSize db g filp.node)))
    | .other => pure none
  match target with
  | none => return (filp, einval)
  | some off =>
    if off.toInt < 0 then return (filp, einval)
    else return ({ filp with pos := off }, off.toInt)

/-- `dcafs_open`. The file system layer has set the position to 0. -/
def dcafsOpen (w : FileWidth) (fuel : Nat) (g : Globals) (name : CString) (flags : Nat)
    (child : DbNode) (nameBuf : NameBuf) : Res (Globals × Int × Option (VfsFile w)) := do
  if flags &&& oAccmode ≠ oRdonly then return (g, erofs, none)
  let found ← dbFindNodeByPath db fuel g name child nameBuf
  if found.code < 0 then return (found.g, found.code, none)
  return (found.g, 0, some ⟨0, found.node⟩)

/-- The `switch` of `dcafs_read`: the text in `data` and its size, if the node has a value. -/
def dcafsReadValue (g : Globals) (node : DbNode) (data : Buf dcafsMaxStrLen) :
    Res (Globals × Option (Buf dcafsMaxStrLen × Nat)) := do
  match ← dbNodeGetType db g node with
  | .int =>
    let (g, val) ← dbNodeGetIntValue db g node
    return (g, some (← inBounds (data.store (fmtS32Dec val).chars), (fmtS32Dec val).length))
  | .float =>
    let text := db.env.fmtFloat (← dbNodeGetFloatValue db g node) dcafsFloatPrecision
    return (g, some (← inBounds (data.store text.chars), text.length))
  | .str => return (g, some (← dbNodeGetStrValue db g node data dcafsMaxStrLen))
  | _ => return (g, none)

/-- `dcafs_read`: what is returned and what is written to `dest`. `data` is a local array. -/
def dcafsRead (g : Globals) (filp : VfsFile w) (data : Buf dcafsMaxStrLen) (nbytes : w.Word) :
    Res (Globals × VfsFile w × Int × List Char) := do
  let (g, value) ← dcafsReadValue db g filp.node data
  match value with
  | none => return (g, filp, efault, [])
  | some (data, size) =>
    let size := BitVec.ofNat w.bits size
    if size ≤ filp.pos then return (g, filp, 0, [])
    else
      let nbytes := if size - filp.pos < nbytes then size - filp.pos else nbytes
      let dest ← inBounds (data.memcpyFrom filp.pos.toNat nbytes.toNat)
      return (g, { filp with pos := filp.pos + nbytes }, nbytes.toInt, dest)

end Dca
