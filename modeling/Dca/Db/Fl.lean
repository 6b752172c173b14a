import Dca.Db.Ps
import Dca.Db.Saul
import Dca.Db.Netif

/-!
# `db_fl.c`: first-level branches and their static entries

A branch lists its static entries and then the nodes of its dynamic entries. The position is one
byte of the branch node.
-/

namespace Dca

open CLib

variable (db : Db)

/-- `_fl_node_init` -/
def flNodeInit (flIdx subIdx : UInt8) (isRoot : Bool) : DbNode := .fl flIdx subIdx isRoot

/-- `db_new_fl_node` -/
def dbNewFlNode (flIdx : UInt8) : DbNode := flNodeInit flIdx 0 true

/-- `assert(fl_idx < db_get_num_fl_nodes()); fl_ent = &db_index[fl_idx];` -/
def flEntry (flIdx : UInt8) : Res DbFlEntry :=
  match db.dbIndex[flIdx.toNat]? with
  | some e => .ok e
  | none => .error .assert

/-- `assert(sub_idx < num_static_entries); &static_entries[sub_idx]` -/
def staticEntry (e : DbFlEntry) (subIdx : UInt8) : Res DbFlStaticEntry :=
  match e.staticEntries[subIdx.toNat]? with
  | some s => .ok s
  | none => .error .assert

/-- `dyn_ent->get_node_fn(next_child)` -/
def GetNodeFn.call (env : Env) (g : Globals) : GetNodeFn → Globals × DbNode
  | .dbNewPsNode => (g, Dca.dbNewPsNode)
  | .dbNewSaulNode => (g, Dca.dbNewSaulNode env)
  | .dbNewNetifNode => Dca.dbNewNetifNode env g

/-- `_fl_node_getname` -/
def flNodeGetname (flIdx subIdx : UInt8) (isRoot : Bool) (name : NameBuf) : Res NameBuf := do
  let flEnt ← flEntry db flIdx
  if isRoot then return name.strncpy flEnt.branchName.toCString
  else return name.strncpy (← staticEntry flEnt subIdx).name.toCString

/-- `_fl_node_getnext_child` -/
def flNodeGetnextChild (c : Cursor) (flIdx subIdx : UInt8) (isRoot : Bool) : Res Cursor := do
  let flEnt ← flEntry db flIdx
  if isRoot then
    if subIdx.toNat < flEnt.staticEntries.length then
      return { c with
        node := .fl flIdx (subIdx + 1) true, child := flNodeInit flIdx subIdx false }
    else
      let dynSubIdx := subIdx.toNat - flEnt.staticEntries.length
      match flEnt.dynamicEntries[dynSubIdx]? with
      | some dynEnt =>
        let (g, child) := dynEnt.getNodeFn.call db.env c.g
        return { g, node := .fl flIdx (subIdx + 1) true, child }
      | none => return { c with child := .null }
  else return { c with child := .null }

/-- `_fl_node_getnext` -/
def flNodeGetnext (flIdx subIdx : UInt8) (isRoot : Bool) : Res DbNode := do
  let flEnt ← flEntry db flIdx
  if isRoot then
    if flIdx.toNat + 1 < db.dbIndex.length then return dbNewFlNode (flIdx + 1)
    else return .null
  else
    let _ ← staticEntry flEnt subIdx
    let nextIdx := subIdx + 1
    if nextIdx.toNat < flEnt.staticEntries.length then return flNodeInit flIdx nextIdx false
    else return .null

/-- `_fl_node_gettype` -/
def flNodeGettype (flIdx subIdx : UInt8) (isRoot : Bool) : Res DbNodeType := do
  if isRoot then return .inner
  else return (← staticEntry (← flEntry db flIdx) subIdx).type

/-- `_fl_node_getint_value` -/
def flNodeGetintValue (flIdx subIdx : UInt8) : Res Int := do
  match (← staticEntry (← flEntry db flIdx) subIdx).getValueFn with
  | .int f => return f db.env
  | _ => .error .badCall

/-- `_fl_node_getfloat_value` -/
def flNodeGetfloatValue (flIdx subIdx : UInt8) : Res CFloat := do
  match (← staticEntry (← flEntry db flIdx) subIdx).getValueFn with
  | .float f => return f db.env
  | _ => .error .badCall

/-- `_fl_node_getstr_value` -/
def flNodeGetstrValue {n : Nat} (flIdx subIdx : UInt8) (value : Buf n) (bufsize : Nat) :
    Res (Buf n × Nat) := do
  match (← staticEntry (← flEntry db flIdx) subIdx).getValueFn with
  | .str f => f db.env n value bufsize
  | _ => .error .badCall

/-- `_fl_node_getsize` -/
def flNodeGetsize (flIdx subIdx : UInt8) (isRoot : Bool) : Res Nat := do
  if isRoot then return 0
  else
    match (← staticEntry (← flEntry db flIdx) subIdx).type with
    | .int => return 4
    | .float => return 4
    | .str => return (← flNodeGetstrValue db flIdx subIdx (Buf.zero 128) 128).2
    | _ => .error .assert

end Dca
