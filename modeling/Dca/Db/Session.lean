import Dca.Db.Shell

/-!
# Histories of database operations

A session holds the shared variables and every node that a caller has in a variable. Opening a
file or a directory is a lookup whose node stays held, and `stat` is a lookup.
-/

namespace Dca

open CLib

/-- An operation on the database. Held nodes are named by their position. -/
inductive DbOp where
  /-- `db_find_node_by_path` into a new variable. -/
  | find (path : CString)
  /-- `db_node_get_next_child` on a held node, into a variable that held `out` before. -/
  | nextChild (i : Nat) (out : DbNode)
  /-- `db_node_get_name` of a held node. -/
  | name (i : Nat)
  /-- Reading a held node into an array of `n` bytes as text, as `dcaq` and the CoAP handler do. -/
  | value (i n : Nat)
  /-- `dcadump` -/
  | dump

/-- The shared variables and the held nodes. -/
structure Session where
  g : Globals
  held : List DbNode
  deriving DecidableEq

/-- The variables when the system starts, with the neighbours that are known by then. -/
def Globals.boot (neighbours : List NeighborEntryl) : Globals := { neighbours }

/-- The session in which nothing has happened. -/
def Session.boot (neighbours : List NeighborEntryl) : Session := ⟨.boot neighbours, []⟩

variable (db : Db)

/-- `held[i]` -/
def Session.node (s : Session) (i : Nat) : Res DbNode :=
  match s.held[i]? with
  | some n => .ok n
  | none => .error .bounds

/-- One operation. -/
def DbOp.exec (stack : Stack) (fuel : Nat) (s : Session) : DbOp → Res Session
  | .find path => do
    let found ← dbFindNodeByPath db fuel s.g path stack.node stack.name
    if found.code = 0 then return ⟨found.g, s.held ++ [found.node]⟩
    else return { s with g := found.g }
  | .nextChild i out => do
    let c ← dbNodeGetNextChild db ⟨s.g, ← s.node i, out⟩
    return ⟨c.g, s.held.set i c.node ++ [c.child]⟩
  | .name i => do
    let _ ← dbNodeGetName db s.g (← s.node i) stack.name
    return s
  | .value i n => do
    let (g, _) ← dbNodeValueToStr db s.g (← s.node i) (Buf.zero n)
    return { s with g }
  | .dump => do
    let (g, _) ← dcadump db stack fuel s.g
    return { s with g }

/-- A completed history: every operation comes back, whatever its locals held before. -/
inductive History : Session → List DbOp → Session → Prop where
  | nil (s : Session) : History s [] s
  | cons {s s' s'' : Session} {op : DbOp} {ops : List DbOp} (stack : Stack) (fuel : Nat)
      (step : op.exec db stack fuel s = .ok s') (rest : History s' ops s'') :
      History s (op :: ops) s''

variable {db}

/-- One history after the other. -/
theorem History.append {s s' s'' : Session} {ops ops' : List DbOp} (h : History db s ops s')
    (h' : History db s' ops' s'') : History db s (ops ++ ops') s'' := by
  induction h with
  | nil s => exact h'
  | cons stack fuel step rest ih => exact .cons stack fuel step (ih h')

end Dca
