import Dca.Db.Node

/-!
# `shell_cmds.c`: the dump

The output is recorded as one entry for each printed node.
-/

namespace Dca

open CLib

variable (db : Db)

/-- `DCA_SHELL_STRBUF_SIZE` -/
def dcaShellStrbufSize : Nat := 128

/-- What `_tree_r` prints for one node: depth, name, type and, for a leaf, its text. -/
structure Printed where
  depth : Nat
  name : CString
  type : DbNodeType
  text : Option CString
  deriving DecidableEq

/-- What the uninitialised local variables of a call happen to hold. -/
structure Stack where
  node : DbNode
  name : NameBuf
  str : Buf dcaShellStrbufSize

/-- `_print_node_name`: the string that goes out, which has to end inside the array. -/
def printNodeName (stack : Stack) (g : Globals) (node : DbNode) : Res CString := do
  let name ← dbNodeGetName db g node stack.name
  let _ ← inBounds name.strlen
  return name.str

/-- `_print_node_content` -/
def printNodeContent (stack : Stack) (g : Globals) (node : DbNode) : Res (Globals × CString) := do
  let (g, str, _) ← dbNodeValueToStr db g node stack.str
  let _ ← inBounds str.strlen
  return (g, str.str)

mutual

/-- `_tree_r` with `print_contents` set. The result has the node as its iteration leaves it. -/
def treeR (stack : Stack) : Nat → Nat → Globals → DbNode → Res (Globals × DbNode × List Printed)
  | 0, _, _, _ => .error .fuel
  | fuel + 1, depth, g, node => do
    let name ← printNodeName db stack g node
    match ← dbNodeGetType db g node with
    | .null => return (g, node, [⟨depth, name, .null, none⟩])
    | .inner =>
      let c ← dbNodeGetNextChild db ⟨g, node, stack.node⟩
      let (c, out) ← treeChildren stack fuel depth c
      return (c.g, c.node, ⟨depth, name, .inner, none⟩ :: out)
    | type =>
      let (g, text) ← printNodeContent db stack g node
      return (g, node, [⟨depth, name, type, some text⟩])

/-- The loop of `_tree_r` over the children, after the first call of `get_next_child`. -/
def treeChildren (stack : Stack) : Nat → Nat → Cursor → Res (Cursor × List Printed)
  | 0, _, _ => .error .fuel
  | fuel + 1, depth, c => do
    if ← dbNodeIsNull db c.g c.child then return (c, [])
    let (g, child, first) ← treeR stack fuel (depth + 1) c.g c.child
    let c ← dbNodeGetNextChild db ⟨g, c.node, child⟩
    let (c, rest) ← treeChildren stack fuel depth c
    return (c, first ++ rest)

end

/-- `_dcadump` -/
def dcadump (stack : Stack) (fuel : Nat) (g : Globals) : Res (Globals × List Printed) := do
  let found ← dbFindNodeByPath db fuel g (.lit "/") stack.node stack.name
  if found.code < 0 then return (found.g, [])
  let (g, _, out) ← treeR db stack fuel 0 found.g found.node
  return (g, out)

/-! ## A query -/

/-- The answer to a query of a path, with an array of `n` bytes for a value. -/
inductive Answer (n : Nat) where
  | notFound
  | children (names : List CString)
  | value (buf : Buf n) (r : Int)
  | invalid
  deriving DecidableEq

/-- The loop over the children, after the first call of `get_next_child`. -/
def childNames : Nat → NameBuf → Cursor → Res (Globals × List CString)
  | 0, _, _ => .error .fuel
  | fuel + 1, name, c => do
    if ← dbNodeIsNull db c.g c.child then return (c.g, [])
    let name ← dbNodeGetName db c.g c.child name
    -- the name is read up to its terminator
    let _ ← inBounds name.strlen
    let (g, rest) ← childNames fuel name (← dbNodeGetNextChild db c)
    return (g, name.str :: rest)

/-- What `_dcaq` and the CoAP handler do with a path: look it up, and list or read the node. -/
def query {n : Nat} (stack : Stack) (buf : Buf n) (fuel : Nat) (g : Globals) (path : CString) :
    Res (Globals × Answer n) := do
  let found ← dbFindNodeByPath db fuel g path stack.node stack.name
  if found.code < 0 then return (found.g, .notFound)
  match ← dbNodeGetType db found.g found.node with
  | .inner =>
    let c ← dbNodeGetNextChild db ⟨found.g, found.node, stack.node⟩
    let (g, names) ← childNames db fuel stack.name c
    return (g, .children names)
  | .int | .float | .str =>
    let (g, buf, r) ← dbNodeValueToStr db found.g found.node buf
    return (g, .value buf r)
  | .null => return (found.g, .invalid)

/-- `_dcaq` -/
def dcaq (stack : Stack) (fuel : Nat) (g : Globals) (path : CString) :
    Res (Globals × Answer dcaShellStrbufSize) :=
  query db stack stack.str fuel g path

end Dca
