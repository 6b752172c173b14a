import Dca.Db.Fl

/-!
# `db_node.c` and the root node of `db.c`

The operations of a node, chosen by its operation table, and the lookup of a path.
-/

namespace Dca

open CLib

variable (db : Db)

/-! ## The root node -/

/-- `db_get_root` -/
def dbGetRoot : DbNode := .root 0

/-- `_root_get_name` -/
def rootGetName (name : NameBuf) : NameBuf := name.strncpy (.lit "/")

/-- `_root_get_next_child` -/
def rootGetNextChild (c : Cursor) (idx : UInt8) : Cursor :=
  if idx.toNat < db.dbIndex.length then
    { c with node := .root (idx + 1), child := dbNewFlNode idx }
  else { c with child := .null }

/-! ## Node operations -/

/-- `db_node_get_name`. `name` is the old content of the array. -/
def dbNodeGetName (g : Globals) (node : DbNode) (name : NameBuf) : Res NameBuf :=
  match node with
  | .null => .error .assert
  | .root _ => .ok (rootGetName name)
  | .fl flIdx subIdx isRoot => flNodeGetname db flIdx subIdx isRoot name
  | .ps pid level => psNodeGetname db.env g pid level name
  | .saul dev level => saulNodeGetname db.env g dev level name
  | .netif iface level => netifNodeGetname db.env g iface level name

/-- `db_node_get_next_child` -/
def dbNodeGetNextChild (c : Cursor) : Res Cursor :=
  match c.node with
  | .null => .error .assert
  | .root idx => .ok (rootGetNextChild db c idx)
  | .fl flIdx subIdx isRoot => flNodeGetnextChild db c flIdx subIdx isRoot
  | .ps pid level => psNodeGetnextChild db.env c pid level
  | .saul dev level => saulNodeGetnextChild db.env c dev level
  | .netif _ _ => netifNodeGetnextChild db.env c

/-- `db_node_get_next`. `next` is the old value of the output variable. -/
def dbNodeGetNext (node next : DbNode) : Res DbNode :=
  match node with
  | .null => .error .assert
  | .root _ => .ok .null
  | .fl flIdx subIdx isRoot => flNodeGetnext db flIdx subIdx isRoot
  | .ps pid level => psNodeGetnext db.env pid level
  | .saul dev level => saulNodeGetnext db.env dev level
  | .netif iface level => .ok (netifNodeGetnext db.env iface level next)

/-- `db_node_get_type` -/
def dbNodeGetType (g : Globals) (node : DbNode) : Res DbNodeType :=
  match node with
  | .null => .ok .null
  | .root _ => .ok .inner
  | .fl flIdx subIdx isRoot => flNodeGettype db flIdx subIdx isRoot
  | .ps _ level => .ok (psNodeGettype g level)
  | .saul _ level => .ok (saulNodeGettype level)
  | .netif _ level => .ok (netifNodeGettype g level)

/-- `db_node_is_null` -/
def dbNodeIsNull (g : Globals) (node : DbNode) : Res Bool := do
  return (← dbNodeGetType db g node) = .null

/-- `db_node_get_size` -/
def dbNodeGetSize (g : Globals) (node : DbNode) : Res Nat :=
  match node with
  | .null => .error .assert
  | .root _ => .ok 0
  | .fl flIdx subIdx isRoot => flNodeGetsize db flIdx subIdx isRoot
  | .ps _ level => .ok (psNodeGetsize level)
  | .saul _ level => .ok (saulNodeGetsize level)
  | .netif iface level => netifNodeGetsize db.env g iface level

/-- `db_node_get_int_value` -/
def dbNodeGetIntValue (g : Globals) (node : DbNode) : Res (Globals × Int) := do
  assert ((← dbNodeGetType db g node) = .int)
  match node with
  | .fl flIdx subIdx _ => return (g, ← flNodeGetintValue db flIdx subIdx)
  | .ps pid _ => return (g, ← psNodeGetintValue db.env g pid)
  | .netif iface _ => netifNodeGetintValue db.env g iface
  | .null | .root _ | .saul _ _ => .error .assert

/-- `db_node_get_float_value` -/
def dbNodeGetFloatValue (g : Globals) (node : DbNode) : Res CFloat := do
  assert ((← dbNodeGetType db g node) = .float)
  match node with
  | .fl flIdx subIdx _ => flNodeGetfloatValue db flIdx subIdx
  | .netif iface _ => netifNodeGetfloatValue db.env g iface
  | .null | .root _ | .ps _ _ | .saul _ _ => .error .assert

/-- `db_node_get_str_value` -/
def dbNodeGetStrValue {n : Nat} (g : Globals) (node : DbNode) (value : Buf n) (bufsize : Nat) :
    Res (Buf n × Nat) := do
  assert ((← dbNodeGetType db g node) = .str)
  match node with
  | .fl flIdx subIdx _ => flNodeGetstrValue db flIdx subIdx value bufsize
  | .ps pid _ => psNodeGetstrValue db.env g pid value
  | .saul dev _ => saulNodeGetstrValue db.env g dev value
  | .netif iface _ => netifNodeGetstrValue db.env g iface value
  | .null | .root _ => .error .assert

/-- `FLOAT_PRESCISION` -/
def floatPrescision : Nat := 3

/-- `fmt_s32_dec` -/
def fmtS32Dec (val : Int) : CString := .ofChars val.repr.toList

/-- A formatted number in `buf`, or `---` where it does not fit. -/
def putNumber {n : Nat} (text : CString) (buf : Buf n) : Res (Buf n × Nat) := do
  if n - 1 < text.length then return (← inBounds (buf.strncpyN (.lit "---") n), 3)
  else return (← inBounds (buf.store text.chars), text.length)

/-- `buf[size] = '\0'; return size + 1;` -/
def terminate {n : Nat} (buf : Buf n) (size : Nat) : Res (Buf n × Int) := do
  return (← inBounds (buf.set size nul), (size : Int) + 1)

/-- `-EFAULT` -/
def efault : Int := -14

/-- `db_node_value_to_str` with an array of `n` bytes. -/
def dbNodeValueToStr {n : Nat} (g : Globals) (node : DbNode) (buf : Buf n) :
    Res (Globals × Buf n × Int) := do
  assert (4 ≤ n)
  match ← dbNodeGetType db g node with
  | .int =>
    let (g, val) ← dbNodeGetIntValue db g node
    let (buf, size) ← putNumber (fmtS32Dec val) buf
    return (g, ← terminate buf size)
  | .float =>
    let val ← dbNodeGetFloatValue db g node
    let (buf, size) ← putNumber (db.env.fmtFloat val floatPrescision) buf
    return (g, ← terminate buf size)
  | .str =>
    let (buf, size) ← dbNodeGetStrValue db g node buf (n - 1)
    return (g, ← terminate buf size)
  | _ => return (g, buf, efault)

/-! ## `db_find_node_by_path` -/

/-- `-ENOENT` -/
def enoent : Int := -2

/-- `while (*tok == '/') tok += 1;`, on the characters from `tok` on. -/
def skipSlashes : List Char → Nat → Nat
  | '/' :: rest, tok => skipSlashes rest (tok + 1)
  | _, tok => tok

/-- `strchr(tok, '/')`, on the characters from `tok` on. -/
def strchrSlash : List Char → Nat → Option Nat
  | [], _ => none
  | c :: rest, pos => if c = '/' then some pos else strchrSlash rest (pos + 1)

/-- `s_pos = strchr(tok, '/'); if (s_pos == NULL) s_pos = path_end;` -/
def slashOrEnd (path : CString) (tok : Nat) : Nat :=
  (strchrSlash (path.chars.drop tok) tok).getD path.length

/-- The variables of the inner loop: the two nodes and `name_buf`. -/
structure Search where
  cur : Cursor
  nameBuf : NameBuf
  deriving DecidableEq

/--
`for every folder in node`: take children until one has a name that begins with `comp`. The result
says whether there was one.
-/
def searchChild (comp : List Char) : Nat → Search → Res (Bool × Search)
  | 0, _ => .error .fuel
  | fuel + 1, s => do
    let cur ← dbNodeGetNextChild db s.cur
    if ← dbNodeIsNull db cur.g cur.child then return (false, { s with cur })
    let nameBuf ← dbNodeGetName db cur.g cur.child s.nameBuf
    if ← inBounds (Buf.memcmp comp nameBuf.chars) then return (true, { cur, nameBuf })
    else searchChild comp fuel { cur, nameBuf }

/-- What a lookup leaves: the shared variables, the return code and `*node`. -/
structure Found where
  g : Globals
  code : Int
  node : DbNode
  deriving DecidableEq

/--
`for every folder in path`: the outer loop, from `tok` and `s_pos` on. `n` bounds the number of
rounds, and `fuel` that of the inner loop.
-/
def findLoop (fuel : Nat) (path : CString) : Nat → Nat → Nat → Search → Res Found
  | 0, _, _, _ => .error .fuel
  | n + 1, tok, sPos, s => do
    let pathEnd := path.length
    if tok = pathEnd then return ⟨s.cur.g, 0, s.cur.node⟩
    assert (tok < pathEnd)
    assert (sPos ≤ pathEnd)
    assert (tok ≤ sPos)
    assert (!(← dbNodeIsNull db s.cur.g s.cur.node))
    let comp := (path.chars.drop tok).take (sPos - tok)
    let (found, s) ← searchChild db comp fuel s
    if !found then return ⟨s.cur.g, enoent, s.cur.node⟩
    -- descend: the child variable keeps the node it was copied from
    let s := { s with cur := { s.cur with node := s.cur.child } }
    let tok := skipSlashes (path.chars.drop sPos) sPos
    findLoop fuel path n tok (slashOrEnd path tok) s

/--
`db_find_node_by_path`. `child` and `nameBuf` are what the uninitialised `child_node` and
`name_buf` happen to hold, and `fuel` bounds the children looked at for one component.
-/
def dbFindNodeByPath (fuel : Nat) (g : Globals) (path : CString) (child : DbNode)
    (nameBuf : NameBuf) : Res Found :=
  let tok := skipSlashes path.chars 0
  findLoop db fuel path (path.length + 1) tok (slashOrEnd path tok)
    ⟨⟨g, dbGetRoot, child⟩, nameBuf⟩

end Dca
