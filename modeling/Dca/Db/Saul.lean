import Dca.Db.Types

/-!
# `saul_devices.c`: the SAUL registry

`/saul/devices` lists the registry and each device has the one field `class`.
-/

namespace Dca

open CLib

/-- `COUNT` of `saul_property_t` -/
def saulCount : Int8 := 1

/-- `_saul_node_init` -/
def saulNodeInit (dev : Option Nat) (level : SaulLevel) : DbNode := .saul dev level

/-- `db_new_saul_node` -/
def dbNewSaulNode (env : Env) : DbNode := saulNodeInit env.saulHead .root

/-- `_saul_node_get_field_name` -/
def saulNodeGetFieldName (g : Globals) (dev : Option Nat) (name : NameBuf) : Res NameBuf := do
  assert dev.isSome
  if g.saulFieldCount = 0 then return name.strncpy (.lit "class")
  else return name

/-- `_saul_node_getname` -/
def saulNodeGetname (env : Env) (g : Globals) (dev : Option Nat) (level : SaulLevel)
    (name : NameBuf) : Res NameBuf := do
  match level with
  | .root => return name.strncpy (.lit "devices")
  | .device =>
    assert dev.isSome
    inBounds (name.strcpy (← env.saul dev).name)
  | .field =>
    if g.saulFieldCount < saulCount then
      let name ← saulNodeGetFieldName g dev name
      return name.strncpy name.str
    else return name

/-- `_saul_node_getnext_child`. A device turns into a leaf when its field is taken. -/
def saulNodeGetnextChild (env : Env) (c : Cursor) (dev : Option Nat) (level : SaulLevel) :
    Res Cursor := do
  match level with
  | .root =>
    match dev with
    | some i =>
      return { c with node := .saul (env.saulNext i) .root, child := saulNodeInit dev .device }
    | none => return { c with child := .null }
  | .device =>
    match dev with
    | some i =>
      if c.g.saulFieldCount < saulCount then
        return { c with node := .saul (env.saulNext i) .field, child := saulNodeInit dev .field }
      else return c
    | none => return c
  | .field =>
    if c.g.saulFieldCount = saulCount - 1 then
      return { c with g := { c.g with saulFieldCount := 0 }, child := .null }
    else
      -- the child variable keeps its old value
      return { c with g := { c.g with saulFieldCount := c.g.saulFieldCount + 1 } }

/-- `_saul_node_getnext`. `dev->next` is read before `dev` is compared with NULL. -/
def saulNodeGetnext (env : Env) (dev : Option Nat) (level : SaulLevel) : Res DbNode := do
  match level with
  | .root => return .null
  | .device | .field =>
    match dev with
    | none => .error .null
    | some i => return saulNodeInit (env.saulNext i) .field

/-- `_saul_node_gettype` -/
def saulNodeGettype : SaulLevel → DbNodeType
  | .root => .inner
  | .device => .inner
  | .field => .str

/-- `_saul_node_getsize` -/
def saulNodeGetsize : SaulLevel → Nat
  | _ => 0

/-- `_saul_node_getstr_value` -/
def saulNodeGetstrValue {n : Nat} (env : Env) (g : Globals) (dev : Option Nat) (value : Buf n) :
    Res (Buf n × Nat) := do
  assert dev.isSome
  if g.saulFieldCount = 0 then
    let text := env.saulClassToStr (← env.saul dev).type
    return (← inBounds (value.strcpy text), text.length)
  else return (value, 88)

end Dca
