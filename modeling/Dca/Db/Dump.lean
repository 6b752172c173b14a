import Dca.Db.Tour

/-!
# What a dump prints

The listing of a forest of visits has one entry for each visit. A traversal prints the listing of
the forest that it goes through, provided that each visit can be printed (`Tours.ends`), and in
particular it comes to an end (`walks_end`).
-/

namespace Dca

open CLib

section Rules

variable (db : Db) (stack : Stack)

/-- What `_tree_r` prints for the node itself. -/
def Visit.print (depth : Nat) (v : Visit) : Res Printed := do
  let name ← printNodeName db stack v.g v.node
  match ← dbNodeGetType db v.g v.node with
  | .null => return ⟨depth, name, .null, none⟩
  | .inner => return ⟨depth, name, .inner, none⟩
  | type =>
    let (_, text) ← printNodeContent db stack v.g v.node
    return ⟨depth, name, type, some text⟩

/-- The listing of a forest of visits. -/
def Prints (depth : Nat) (forest : Forest Visit) (out : List Printed) : Prop :=
  List.Forall₂ (fun (x : Nat × Visit) p => x.2.print db stack x.1 = .ok p) (forest.preorder depth) out

variable {db stack} {depth : Nat}

theorem Prints.siblings {v : Visit} {below rest : Forest Visit} {out out' : List Printed}
    (h : Prints db stack depth (.node v below .nil) out)
    (h' : Prints db stack depth rest out') :
    Prints db stack depth (.node v below rest) (out ++ out') := by
  unfold Prints at h h' ⊢
  simp only [Forest.preorder, List.append_nil] at h ⊢
  exact List.rel_append h h'

theorem Prints.node {v : Visit} {below : Forest Visit} {p : Printed} {out : List Printed}
    (hp : v.print db stack depth = .ok p) (h : Prints db stack (depth + 1) below out) :
    Prints db stack depth (.node v below .nil) (p :: out) := by
  unfold Prints at h ⊢
  simp only [Forest.preorder, List.append_nil]
  exact .cons hp h

theorem Prints.leaf {v : Visit} {p : Printed} (hp : v.print db stack depth = .ok p) :
    Prints db stack depth (.leaf v) [p] := Prints.node hp .nil

theorem Prints.unique {forest : Forest Visit} {out out' : List Printed}
    (h : Prints db stack depth forest out) (h' : Prints db stack depth forest out') : out = out' := by
  refine List.right_unique_forall₂' ?_ h h'
  intro x p p' hp hp'
  exact Except.ok.inj (hp.symm.trans hp')

theorem Prints.print_eq_ok {forest : Forest Visit} {out : List Printed}
    (h : Prints db stack depth forest out) :
    ∀ x ∈ forest.preorder depth, ∃ p, x.2.print db stack x.1 = .ok p := by
  unfold Prints at h
  generalize forest.preorder depth = visits at h
  induction h with
  | nil => simp
  | cons hp _ ih => exact List.forall_mem_cons.mpr ⟨⟨_, hp⟩, ih⟩

end Rules

/-! ## Along the way -/

section Printing

variable {db : Db} {stack : Stack} {depth : Nat} {E : Trap → Prop}

/-- The parts of what is printed for a leaf. -/
theorem print_leaf {g : Globals} {node : DbNode} {type : DbNodeType}
    (htype : dbNodeGetType db g node = .ok type) (hleaf : type ≠ .null ∧ type ≠ .inner) :
    Visit.print db stack depth ⟨g, node⟩ = do
      let name ← printNodeName db stack g node
      let (_, text) ← printNodeContent db stack g node
      return ⟨depth, name, type, some text⟩ := by
  simp only [Visit.print, htype, ok_bind]
  cases type with
  | null => exact absurd rfl hleaf.1
  | inner => exact absurd rfl hleaf.2
  | int | float | str => rfl

theorem print_folder {g : Globals} {node : DbNode} (htype : dbNodeGetType db g node = .ok .inner) :
    Visit.print db stack depth ⟨g, node⟩ = do
      let name ← printNodeName db stack g node
      return ⟨depth, name, .inner, none⟩ := by
  simp only [Visit.print, htype, ok_bind]

theorem treeR_leaf {g : Globals} {node : DbNode} {type : DbNodeType}
    (htype : dbNodeGetType db g node = .ok type) (hleaf : type ≠ .null ∧ type ≠ .inner)
    (fuel : Nat) :
    treeR db stack (fuel + 1) depth g node = do
      let name ← printNodeName db stack g node
      let (g', text) ← printNodeContent db stack g node
      return (g', node, [⟨depth, name, type, some text⟩]) := by
  simp only [treeR, htype, ok_bind]
  cases type with
  | null => exact absurd rfl hleaf.1
  | inner => exact absurd rfl hleaf.2
  | int | float | str => rfl

/-- What goes out for a leaf is the string that `db_node_value_to_str` leaves in the array. -/
theorem printContent_eq {g g' : Globals} {node : DbNode} {b : Buf dcaShellStrbufSize} {r : Int}
    {text : CString} (hval : dbNodeValueToStr db g node stack.str = .ok (g', b, r))
    (hs : b.Shows text) : printNodeContent db stack g node = .ok (g', text) := by
  simp only [printNodeContent, hval, ok_bind, hs.strlen_eq, inBounds, hs.str_eq, pure_eq_ok]

/-- A leaf of type `float` shows its value as a number. -/
theorem printContent_float {g : Globals} {node : DbNode} {v : CFloat}
    (htype : dbNodeGetType db g node = .ok .float)
    (hv : dbNodeGetFloatValue db g node = .ok v) :
    printNodeContent db stack g node
      = .ok (g, numberText dcaShellStrbufSize (db.env.fmtFloat v floatPrescision)) := by
  obtain ⟨b, hval, hs⟩ := valueToStr_of_float (by decide) htype hv stack.str
  exact printContent_eq hval hs

/-- A leaf of type `str` shows what its getter writes, also where a longer length is returned. -/
theorem printContent_str {g : Globals} {node : DbNode} {b : Buf dcaShellStrbufSize} {size : Nat}
    {text : CString} (htype : dbNodeGetType db g node = .ok .str)
    (hget : dbNodeGetStrValue db g node stack.str (dcaShellStrbufSize - 1) = .ok (b, size))
    (hs : b.Shows text) (hle : text.length ≤ size) (hlt : size < dcaShellStrbufSize) :
    printNodeContent db stack g node = .ok (g, text) := by
  obtain ⟨b', hset, hs'⟩ : ∃ b', b.set size nul = some b' ∧ b'.Shows text := by
    rcases Nat.eq_or_lt_of_le hle with rfl | hlong
    · exact Buf.shows_set hs.begins hlt
    · exact ⟨_, if_pos hlt, hs.set hlong (if_pos hlt)⟩
  have hterm : terminate b size = .ok (b', (size : Int) + 1) := by
    rw [terminate, hset]
    rfl
  have hval : dbNodeValueToStr db g node stack.str = .ok (g, b', (size : Int) + 1) := by
    rw [valueToStr_str (by decide) htype, hget]
    simp only [ok_bind, hterm, pure_eq_ok]
  exact printContent_eq hval hs'

theorem printContent_afterValue {g g' : Globals} {node : DbNode} {type : DbNodeType}
    {text : CString} (htype : dbNodeGetType db g node = .ok type) (hleaf : type ≠ .inner)
    (h : printNodeContent db stack g node = .ok (g', text)) : g' = afterValue db.env g node := by
  unfold printNodeContent at h
  obtain ⟨⟨g₁, b, r⟩, hval, h⟩ := bind_eq_ok.mp h
  obtain ⟨_, -, h⟩ := bind_eq_ok.mp h
  obtain ⟨rfl, -⟩ := Prod.mk.inj (Except.ok.inj h)
  exact valueToStr_afterValue htype hleaf hval

/-- A leaf that can be printed leaves what reading its value leaves. -/
theorem ends_leaf {g : Globals} {node : DbNode} {type : DbNodeType}
    (htype : dbNodeGetType db g node = .ok type) (hleaf : type ≠ .null ∧ type ≠ .inner)
    (hprint : Outcome E (fun _ => True) (Visit.print db stack depth ⟨g, node⟩)) :
    Ends E (fun r : Globals × DbNode × List Printed =>
        r.1 = afterValue db.env g node ∧ r.2.1 = node ∧
          Prints db stack depth (.leaf ⟨g, node⟩) r.2.2)
      (fun fuel => treeR db stack fuel depth g node) := by
  refine .succ ?_
  have hp : Visit.print db stack depth ⟨g, node⟩ = _ := print_leaf htype hleaf
  rw [hp] at hprint
  simp only [treeR_leaf htype hleaf]
  cases hname : printNodeName db stack g node with
  | error e =>
    rw [hname] at hprint
    exact .const hprint
  | ok name =>
    cases htext : printNodeContent db stack g node with
    | error e =>
      rw [hname, htext] at hprint
      exact .const hprint
    | ok r =>
      obtain ⟨g', text⟩ := r
      rw [hname, htext] at hp
      exact .const ⟨printContent_afterValue htype hleaf.2 htext, rfl, .leaf hp⟩

/-- A folder that can be printed leaves what its children leave. -/
theorem ends_folder {g : Globals} {node : DbNode} {c c' : Cursor} {below : Forest Visit}
    (htype : dbNodeGetType db g node = .ok .inner)
    (hfirst : dbNodeGetNextChild db ⟨g, node, stack.node⟩ = .ok c)
    (hprint : Outcome E (fun _ => True) (Visit.print db stack depth ⟨g, node⟩))
    (hbelow : Ends E (fun r : Cursor × List Printed =>
        r.1 = c' ∧ Prints db stack (depth + 1) below r.2)
      (fun fuel => treeChildren db stack fuel depth c)) :
    Ends E (fun r : Globals × DbNode × List Printed =>
        r.1 = c'.g ∧ r.2.1 = c'.node ∧ Prints db stack depth (.node ⟨g, node⟩ below .nil) r.2.2)
      (fun fuel => treeR db stack fuel depth g node) := by
  have hp : Visit.print db stack depth ⟨g, node⟩ = _ := print_folder htype
  rw [hp] at hprint
  refine .succ ?_
  simp only [treeR, htype, ok_bind, hfirst]
  cases hname : printNodeName db stack g node with
  | error e =>
    rw [hname] at hprint
    exact .const hprint
  | ok name =>
    rw [hname] at hp
    simp only [ok_bind]
    refine hbelow.bind fun r hr => .const ⟨congrArg Cursor.g hr.1, congrArg Cursor.node hr.1, ?_⟩
    exact .node hp hr.2

/-- **A traversal prints the forest of its visits**, if each of them can be printed. -/
theorem Tours.ends {c c' : Cursor} {forest : Forest Visit} (h : Tours db stack.node c c' forest)
    (hprint : ∀ x ∈ forest.preorder (depth + 1),
      Outcome E (fun _ => True) (x.2.print db stack x.1)) :
    Ends E (fun r : Cursor × List Printed => r.1 = c' ∧ Prints db stack (depth + 1) forest r.2)
      (fun fuel => treeChildren db stack fuel depth c) := by
  induction h generalizing depth with
  | @nil c hnull =>
    refine .succ ?_
    simp only [treeChildren, hnull, dbNodeIsNull, dbNodeGetType, ok_bind, pure_eq_ok, decide_true,
      if_true]
    exact .const ⟨rfl, .nil⟩
  | @leaf c c₁ c' type rest htype hleaf hnext _ ih =>
    simp only [Forest.preorder, List.nil_append, List.forall_mem_cons] at hprint
    refine .succ ?_
    simp only [treeChildren, dbNodeIsNull_eq htype, hleaf.1, decide_false, ok_bind,
      Bool.false_eq_true, if_false]
    refine (ends_leaf htype hleaf hprint.1).bind fun r hr => ?_
    obtain ⟨g, node, out⟩ := r
    obtain ⟨rfl, rfl, hout⟩ := hr
    simp only [hnext, ok_bind]
    exact (ih hprint.2).bind fun r' hr' => .const ⟨hr'.1, hout.siblings hr'.2⟩
  | @folder c c₀ c₀' c₁ c' below rest htype hfirst _ hnext _ ihBelow ihRest =>
    simp only [Forest.preorder, List.forall_mem_cons, List.forall_mem_append] at hprint
    obtain ⟨hself, hbelow, hrest⟩ := hprint
    refine .succ ?_
    simp only [treeChildren, dbNodeIsNull_eq htype, reduceCtorEq, decide_false, ok_bind,
      Bool.false_eq_true, if_false]
    refine (ends_folder htype hfirst hself (ihBelow hbelow)).bind fun r hr => ?_
    obtain ⟨g, node, out⟩ := r
    obtain ⟨rfl, rfl, hout⟩ := hr
    simp only [hnext, ok_bind]
    exact (ihRest hrest).bind fun r' hr' => .const ⟨hr'.1, hout.siblings hr'.2⟩

/-- The same for a whole node. -/
theorem TourTo.ends {g g' : Globals} {node : DbNode} {below : Forest Visit}
    (h : TourTo db stack.node g node g' below)
    (hprint : ∀ x ∈ (Forest.node (⟨g, node⟩ : Visit) below .nil).preorder depth,
      Outcome E (fun _ => True) (x.2.print db stack x.1)) :
    Ends E (fun r : Globals × DbNode × List Printed =>
        r.1 = g' ∧ Prints db stack depth (.node ⟨g, node⟩ below .nil) r.2.2)
      (fun fuel => treeR db stack fuel depth g node) := by
  simp only [Forest.preorder, List.append_nil, List.forall_mem_cons] at hprint
  rcases h with ⟨⟨type, htype, hleaf⟩, rfl, rfl⟩ | ⟨htype, c, c', hfirst, rfl, htours⟩
  · exact (ends_leaf htype hleaf hprint.1).mono (fun _ => id) fun r hr => ⟨hr.1, hr.2.2⟩
  · exact (ends_folder htype hfirst hprint.1 (htours.ends hprint.2)).mono (fun _ => id)
      fun r hr => ⟨hr.1, hr.2.2⟩

/-- A traversal prints what its visits print. -/
theorem TourTo.prints {g g' : Globals} {node : DbNode} {below : Forest Visit} {out : List Printed}
    (h : TourTo db stack.node g node g' below)
    (hp : Prints db stack depth (.node ⟨g, node⟩ below .nil) out) :
    Ends (fun _ => False) (fun r : Globals × DbNode × List Printed => r.1 = g' ∧ r.2.2 = out)
      (fun fuel => treeR db stack fuel depth g node) := by
  refine (h.ends fun x hx => ?_).mono (fun _ => id) fun r hr => ⟨hr.1, hr.2.unique hp⟩
  obtain ⟨p, hx⟩ := hp.print_eq_ok x hx
  rw [hx]
  trivial

/-- The same below a node. -/
theorem Tours.prints {c c' : Cursor} {forest : Forest Visit} {out : List Printed}
    (h : Tours db stack.node c c' forest) (hp : Prints db stack (depth + 1) forest out) :
    Ends (fun _ => False) (fun r : Cursor × List Printed => r = (c', out))
      (fun fuel => treeChildren db stack fuel depth c) := by
  refine (h.ends fun x hx => ?_).mono (fun _ => id) fun r hr => Prod.ext hr.1 (hr.2.unique hp)
  obtain ⟨p, hx⟩ := hp.print_eq_ok x hx
  rw [hx]
  trivial

/-- More fuel does not change what a traversal prints. -/
theorem tree_mono (fuel : Nat) :
    (∀ depth g node r, treeR db stack fuel depth g node = .ok r →
      treeR db stack (fuel + 1) depth g node = .ok r) ∧
    ∀ depth c r, treeChildren db stack fuel depth c = .ok r →
      treeChildren db stack (fuel + 1) depth c = .ok r := by
  induction fuel with
  | zero =>
    refine ⟨fun depth g node r h => ?_, fun depth c r h => ?_⟩
    · rw [treeR] at h
      cases h
    · rw [treeChildren] at h
      cases h
  | succ fuel ih =>
    obtain ⟨ihTree, ihChildren⟩ := ih
    refine ⟨fun depth g node r h => ?_, fun depth c r h => ?_⟩
    · unfold treeR at h ⊢
      obtain ⟨name, hname, h⟩ := bind_eq_ok.mp h
      obtain ⟨type, htype, h⟩ := bind_eq_ok.mp h
      simp only [hname, htype, ok_bind]
      cases type with
      | null | int | float | str => exact h
      | inner =>
        obtain ⟨c, hc, h⟩ := bind_eq_ok.mp h
        obtain ⟨r', hchildren, h⟩ := bind_eq_ok.mp h
        simp only [hc, ihChildren _ _ _ hchildren, ok_bind]
        exact h
    · unfold treeChildren at h ⊢
      obtain ⟨isNull, hnull, h⟩ := bind_eq_ok.mp h
      rw [hnull, ok_bind]
      cases isNull with
      | true => exact h
      | false =>
        obtain ⟨r₁, htree, h⟩ := bind_eq_ok.mp h
        obtain ⟨c', hc', h⟩ := bind_eq_ok.mp h
        obtain ⟨r₂, hchildren, h⟩ := bind_eq_ok.mp h
        simp only [ihTree _ _ _ _ htree, hc', ihChildren _ _ _ hchildren, ok_bind,
          Bool.false_eq_true, if_false]
        exact h

/-- What a traversal has printed is the forest of its visits. -/
theorem TourTo.prints_of_eq_ok {g g' : Globals} {node : DbNode} {below : Forest Visit}
    (h : TourTo db stack.node g node g' below) {fuel : Nat} {r : Globals × DbNode × List Printed}
    (hr : treeR db stack fuel depth g node = .ok r) :
    Prints db stack depth (.node ⟨g, node⟩ below .nil) r.2.2 := by
  have hends : Ends (fun _ => True) _ fun fuel => treeR db stack fuel depth g node :=
    h.ends fun x _ => by cases x.2.print db stack x.1 <;> trivial
  exact (hends.of_eq_ok (fun n r => (tree_mono n).1 _ _ _ r) hr).2

theorem treeR_of_le {m n : Nat} (h : m ≤ n) {g : Globals} {node : DbNode}
    {r : Globals × DbNode × List Printed} (hm : treeR db stack m depth g node = .ok r) :
    treeR db stack n depth g node = .ok r := by
  induction n, h using Nat.le_induction with
  | base => exact hm
  | succ n _ ih => exact (tree_mono n).1 _ _ _ _ ih

end Printing

/-! ## Whatever is there can be printed -/

section Sound

variable {cfg : Config} {env : Env} {g : Globals} {node : DbNode} {stack : Stack}
  {addrs : List Ipv6Addr}

/-- What a dump goes beyond: an array of a name or a text, or one that is read with nothing in it. -/
def LongDump (env : Env) (addrs : List Ipv6Addr) (stack : Stack) : Prop :=
  LongName env addrs ∨ LongThread env ∨ ¬ env.TextsFit dcaShellStrbufSize ∨
    nul ∉ stack.name.chars ∨ nul ∉ stack.str.chars

/-- The addresses of the neighbour list are among these. -/
def Globals.Known (g : Globals) (addrs : List Ipv6Addr) : Prop := ∀ e ∈ g.neighbours, e.addr ∈ addrs

/-- What is printed for a sound node. -/
theorem print_of_sound (h : Sound (.ofEnv cfg env) node) (hne : node ≠ .null) (hg : g.Known addrs)
    (depth : Nat) :
    Outcome (Broken (LongDump env addrs stack)) (fun _ => True)
      (Visit.print (.ofEnv cfg env) stack depth ⟨g, node⟩) := by
  obtain ⟨type, htype⟩ := type_of_sound h g
  have hfits : env.TextsFit dcaShellStrbufSize ∨ LongDump env addrs stack :=
    (em _).imp_right fun h => Or.inr (Or.inr (Or.inl h))
  have hstr : nul ∈ stack.str.chars ∨ LongDump env addrs stack :=
    (em _).imp_right fun h => Or.inr (Or.inr (Or.inr (Or.inr h)))
  have hname : Outcome (Broken (LongDump env addrs stack)) (fun _ => True)
      (printNodeName (.ofEnv cfg env) stack g node) := by
    refine (broken_mono (name_of_sound h hne hg stack.name) Or.inl).bind fun b _ hb => ?_
    have hnul : nul ∈ b.chars ∨ LongDump env addrs stack := by
      by_cases hname : nul ∈ stack.name.chars
      · exact (hb hname).imp_right fun h => Or.inr (Or.inl h)
      · exact Or.inr (Or.inr (Or.inr (Or.inr (Or.inl hname))))
    exact (strlen_outcome hnul).bind fun _ _ _ => trivial
  have htext : Outcome (Broken (LongDump env addrs stack)) (fun _ => True)
      (printNodeContent (.ofEnv cfg env) stack g node) :=
    (valueToStr_outcome (by decide) hfits h hstr).bind fun _ _ hnul =>
      (strlen_outcome hnul).bind fun _ _ _ => trivial
  simp only [Visit.print, htype, ok_bind]
  refine hname.bind fun name _ _ => ?_
  cases type with
  | null | inner => trivial
  | int | float | str => exact htext.bind fun _ _ _ => trivial

/-! ### Families -/

/-- A node that can be printed, with a neighbour list of known addresses. -/
structure Visit.Sound (db : Db) (addrs : List Ipv6Addr) (v : Visit) : Prop where
  node : Dca.Sound db v.node
  ne_null : v.node ≠ .null
  known : v.g.Known addrs

/-- The addresses are also those of the neighbour caches. -/
def Env.Caches (env : Env) (addrs : List Ipv6Addr) : Prop :=
  ∀ n ∈ env.ifaces, ∀ a ∈ env.nibNc n.id, a ∈ addrs

theorem known_countNeighbour {ips : List Ipv6Addr} (hips : ∀ a ∈ ips, a ∈ addrs)
    (hg : g.Known addrs) : (ips.foldl countNeighbour g).Known addrs := by
  induction ips generalizing g with
  | nil => exact hg
  | cons ip ips ih =>
    obtain ⟨hip, hips⟩ := List.forall_mem_cons.mp hips
    refine ih hips fun e he => ?_
    simp only [countNeighbour, netifNodeAddList, insertEntry] at he
    split_ifs at he
    · exact hg e he
    · rcases List.mem_cons.mp he with rfl | he
      · exact hip
      · exact hg e he

theorem known_afterValue (hcaches : env.Caches addrs) (hg : g.Known addrs) (node : DbNode) :
    (afterValue env g node).Known addrs := by
  unfold afterValue
  split
  · split_ifs
    · split
      · exact known_countNeighbour (hcaches _ (List.mem_of_getElem? ‹_›)) hg
      · exact hg
    · exact hg
  · exact hg

theorem known_constructed (hg : g.Known addrs) (node : DbNode) :
    (node.constructed g).Known addrs := by
  unfold DbNode.constructed
  split <;> exact hg

section Families

variable {db : Db}

theorem psFieldForest_sound {pid : Nat} (hlive : db.env.Live pid) (n : Nat) (hg : g.Known addrs) :
    (psFieldForest pid n g).All (Visit.Sound db addrs) := by
  induction n generalizing g with
  | zero => exact ⟨⟨hlive, by simp, hg⟩, trivial, trivial⟩
  | succ n ih => exact ⟨⟨hlive, by simp, hg⟩, trivial, ih hg⟩

theorem psForest_sound {pids : List Nat} (hlive : ∀ pid ∈ pids, db.env.Live pid)
    (hg : g.Known addrs) : (psForest pids g).All (Visit.Sound db addrs) := by
  induction pids generalizing g with
  | nil => trivial
  | cons pid pids ih =>
    obtain ⟨hpid, hlive⟩ := List.forall_mem_cons.mp hlive
    exact ⟨⟨hpid, by simp, hg⟩, psFieldForest_sound hpid _ hg, ih hlive hg⟩

theorem live_of_mem_pidsFrom {env : Env} {pid p : Nat} (hpid : kernelPidFirst ≤ pid)
    (h : p ∈ env.pidsFrom pid) : env.Live p := by
  obtain ⟨hge, hlast, hsome⟩ := mem_pidsFrom.mp h
  exact ⟨hpid.trans hge, hlast, hsome⟩

theorem saulForest_sound (n : Nat) {i : Nat} (hi : i + n = db.env.saulReg.length)
    (hg : g.Known addrs) : (saulForest n i g).All (Visit.Sound db addrs) := by
  induction n generalizing i with
  | zero => trivial
  | succ n ih =>
    have hdev : ∃ j < db.env.saulReg.length, some i = some j := ⟨i, by omega, rfl⟩
    exact ⟨⟨hdev, by simp, hg⟩, ⟨⟨hdev, by simp, hg⟩, trivial, trivial⟩, ih (by omega)⟩

theorem neighbourForest_sound {i : Nat} (hi : i < db.env.ifaces.length) (n : Nat)
    (hg : g.Known addrs) : (neighbourForest i n g).All (Visit.Sound db addrs) := by
  have hiface : ∃ j < db.env.ifaces.length, some i = some j := ⟨i, hi, rfl⟩
  induction n generalizing g with
  | zero => trivial
  | succ n ih =>
    have hqos : ∀ sub, Visit.Sound db addrs
        ⟨{ g with netifSubFieldCount := sub }, .netif (some i) .qos⟩ :=
      fun _ => ⟨hiface, by simp, hg⟩
    exact ⟨⟨hiface, by simp, hg⟩, ⟨hqos 2, trivial, hqos 3, trivial, hqos 4, trivial, trivial⟩,
      ih hg⟩

theorem ifaceForest_sound (hcaches : env.Caches addrs) {i : Nat} (hi : i < db.env.ifaces.length)
    (n : Nat) (hg : g.Known addrs) : (ifaceForest env i n g).All (Visit.Sound db addrs) := by
  have hiface : ∃ j < db.env.ifaces.length, some i = some j := ⟨i, hi, rfl⟩
  induction n generalizing g with
  | zero => exact ⟨⟨hiface, by simp, hg⟩, neighbourForest_sound hi _ hg, trivial⟩
  | succ n ih =>
    exact ⟨⟨hiface, by simp, hg⟩, trivial, ih (known_afterValue hcaches hg (.netif (some i) .field))⟩

theorem known_afterFields (hcaches : env.Caches addrs) (i n : Nat) (hg : g.Known addrs) :
    (afterFields env i n g).Known addrs := by
  induction n generalizing g with
  | zero => exact hg
  | succ n ih => exact ih (known_afterValue hcaches hg (.netif (some i) .field))

theorem known_afterIfaces (hcaches : env.Caches addrs) (n i : Nat) (hg : g.Known addrs) :
    (afterIfaces env n i g).Known addrs := by
  induction n generalizing i g with
  | zero => exact hg
  | succ n ih => exact ih (i + 1) (known_afterFields hcaches i _ hg)

theorem netifForest_sound (hcaches : env.Caches addrs) (n : Nat) {i : Nat}
    (hi : i + n = db.env.ifaces.length) (hg : g.Known addrs) :
    (netifForest env n i g).All (Visit.Sound db addrs) := by
  induction n generalizing i g with
  | zero => trivial
  | succ n ih =>
    have hlt : i < db.env.ifaces.length := by omega
    exact ⟨⟨⟨i, hlt, rfl⟩, by simp, hg⟩, ifaceForest_sound hcaches hlt _ hg,
      ih (by omega) (known_afterFields hcaches i _ hg)⟩

/-- A dump from a state with known addresses ends in one, and what it visits can be printed. -/
def DumpSound (db : Db) (addrs : List Ipv6Addr) (dump : Globals × Forest Visit) : Prop :=
  dump.1.Known addrs ∧ dump.2.All (Visit.Sound db addrs)

theorem rowsDump_sound {dump : Globals → DbNode → Globals × Forest Visit} {rows : List TableRow}
    (hrows : ∀ row ∈ rows, (Dca.Sound db row.node ∧ row.node ≠ .null) ∧
      ∀ {g : Globals}, g.Known addrs → DumpSound db addrs (dump g row.node))
    (hg : g.Known addrs) : DumpSound db addrs (rowsDump dump rows g) := by
  induction rows generalizing g with
  | nil => exact ⟨hg, trivial⟩
  | cons row rows ih =>
    obtain ⟨⟨⟨hsound, hne⟩, hbelow⟩, hrows⟩ := List.forall_mem_cons.mp hrows
    have hat : (row.node.constructed g).Known addrs := known_constructed hg row.node
    obtain ⟨hknown, hvisits⟩ := hbelow hat
    obtain ⟨hknown', hrest⟩ := ih hrows hknown
    exact ⟨hknown', ⟨hsound, hne, hat⟩, hvisits, hrest⟩

end Families

/-- The entries of a branch, with what lies below them. -/
theorem entry_sound (hfirst : env.FirstThread) (hcaches : env.Caches addrs) {flIdx : UInt8}
    {e : DbFlEntry} (he : (dbIndex cfg)[flIdx.toNat]? = some e) {row : TableRow}
    (hrow : row ∈ e.rows env flIdx) :
    (Sound (.ofEnv cfg env) row.node ∧ row.node ≠ .null) ∧
      ∀ {g : Globals}, g.Known addrs →
        DumpSound (.ofEnv cfg env) addrs (dynamicDump env g row.node) := by
  rcases entry_of_row he hrow with ⟨subIdx, s, hs, rfl⟩ | ⟨d, -, rfl⟩
  · exact ⟨⟨⟨e, he, fun _ => ⟨s, hs⟩⟩, by simp⟩, fun hg => ⟨hg, trivial⟩⟩
  · refine ⟨⟨sound_getNodeFn hfirst d.getNodeFn, ?_⟩, fun hg => ?_⟩
    · cases d.getNodeFn <;> simp [GetNodeFn.node, dbNewPsNode, dbNewSaulNode, psNodeInit,
        saulNodeInit, netifNodeInit]
    · cases d.getNodeFn with
      | dbNewPsNode =>
        exact ⟨hg, psForest_sound (fun pid => live_of_mem_pidsFrom (Nat.le_refl _)) hg⟩
      | dbNewSaulNode => exact ⟨hg, saulForest_sound _ (Nat.zero_add _) hg⟩
      | dbNewNetifNode =>
        exact ⟨known_afterIfaces hcaches _ 0 hg, netifForest_sound hcaches _ (Nat.zero_add _) hg⟩

/-- **Every node that a dump visits is there.** -/
theorem rootDump_sound (hfirst : env.FirstThread) (hcaches : env.Caches addrs)
    (hg : g.Known addrs) :
    (Forest.node ⟨g, dbGetRoot⟩ (rootDump (.ofEnv cfg env) g).2 .nil).All
      (Visit.Sound (.ofEnv cfg env) addrs) := by
  have hbelow : DumpSound (.ofEnv cfg env) addrs (rootDump (.ofEnv cfg env) g) := by
    refine rowsDump_sound (fun row hrow => ?_) hg
    obtain ⟨flIdx, e, he, rfl⟩ := branch_of_row hrow
    refine ⟨⟨⟨e, he, by simp⟩, by simp [dbNewFlNode, flNodeInit]⟩, rowsDump_sound fun row hrow => ?_⟩
    rw [tableRows_branch he] at hrow
    exact entry_sound hfirst hcaches he hrow
  exact ⟨⟨trivial, by simp [dbGetRoot], hg⟩, hbelow.2, trivial⟩

/-- The addresses in the neighbour list and in the caches of the interfaces. -/
def Env.allAddrs (env : Env) (g : Globals) : List Ipv6Addr :=
  g.addrs ++ env.ifaces.flatMap fun n => env.nibNc n.id

theorem known_allAddrs (env : Env) (g : Globals) : g.Known (env.allAddrs g) :=
  fun _ he => List.mem_append_left _ (List.mem_map_of_mem he)

theorem caches_allAddrs (env : Env) (g : Globals) : env.Caches (env.allAddrs g) :=
  fun n hn _ ha => List.mem_append_right _ (List.mem_flatMap.mpr ⟨n, hn, ha⟩)

end Sound

section Dumps

variable {cfg : Config} {env : Env} {stack : Stack}

theorem find_root (db : Db) (fuel : Nat) (g : Globals) (child : DbNode) (nameBuf : NameBuf) :
    dbFindNodeByPath db fuel g (.lit "/") child nameBuf = .ok ⟨g, 0, dbGetRoot⟩ :=
  dbFindNodeByPath_root db fuel g (.lit "/") child nameBuf (by decide)

/-- What `dcadump` leaves, and prints. -/
theorem ends_dcadump (hfirst : env.FirstThread) {g : Globals} (hg : g.InRange) :
    Ends (Broken (LongDump env (env.allAddrs g) stack))
      (fun r : Globals × List Printed => r.1 = (rootDump (.ofEnv cfg env) g).1 ∧
        Prints (.ofEnv cfg env) stack 0 (.node ⟨g, dbGetRoot⟩ (rootDump (.ofEnv cfg env) g).2 .nil)
          r.2)
      (fun fuel => dcadump (.ofEnv cfg env) stack fuel g) := by
  have hforest : Forest.All (Visit.Sound (.ofEnv cfg env) (env.allAddrs g)) _ :=
    rootDump_sound hfirst (caches_allAddrs env g) (known_allAddrs env g)
  have hprint : ∀ x ∈ (Forest.node (⟨g, dbGetRoot⟩ : Visit) (rootDump (.ofEnv cfg env) g).2
      .nil).preorder 0, Outcome (Broken (LongDump env (env.allAddrs g) stack)) (fun _ => True)
        (x.2.print (.ofEnv cfg env) stack x.1) := by
    intro x hx
    obtain ⟨hsound, hne, hknown⟩ := hforest.of_mem_preorder hx
    exact print_of_sound hsound hne hknown x.1
  have htour : TourTo (.ofEnv cfg env) stack.node g dbGetRoot _ _ := (tourTo_root hfirst hg).1
  have hcode : ¬ (0 : Int) < 0 := by decide
  simp only [dcadump, find_root, ok_bind, if_neg hcode]
  exact (htour.ends hprint).bind fun r hr => .const hr

end Dumps

/--
**Lookups and dumps come to an end**, whatever earlier operations left in the counters of the
fields, the measurements and the neighbours. The other results are NULL links, and accesses outside
an array where a name, a component of the path or a text does not fit or an uninitialised array
holds no terminator. `_saul_field_count` is 0 in every state that can be reached.
-/
theorem walks_end (cfg : Config) (env : Env) (hfirst : env.FirstThread) (g : Globals)
    (hg : g.InRange) :
    (∀ (path : CString) (child : DbNode) (nameBuf : NameBuf), ∃ N r,
      (∀ fuel ≥ N, dbFindNodeByPath (.ofEnv cfg env) fuel g path child nameBuf = r) ∧
        ∀ t, r = .error t → t = .null ∨ (t = .bounds ∧ LongLookup env g path)) ∧
    ∀ stack : Stack, ∃ N r, (∀ fuel ≥ N, dcadump (.ofEnv cfg env) stack fuel g = r) ∧
      ∀ t, r = .error t → t = .null ∨ (t = .bounds ∧ LongDump env (env.allAddrs g) stack) := by
  refine ⟨fun path child nameBuf => ?_, fun stack => ?_⟩
  · have hfind : Ends (Broken (LongLookup env g path)) _ fun fuel =>
        dbFindNodeByPath (.ofEnv cfg env) fuel g path child nameBuf :=
      ends_find hfirst hg path child nameBuf
    obtain ⟨N, r, hr, hout⟩ := hfind.exists_fuel
    exact ⟨N, r, hr, fun t ht => hout.of_eq_error ht⟩
  · have hdump : Ends (Broken (LongDump env (env.allAddrs g) stack)) _ fun fuel =>
        dcadump (.ofEnv cfg env) stack fuel g :=
      ends_dcadump hfirst hg
    obtain ⟨N, r, hr, hout⟩ := hdump.exists_fuel
    exact ⟨N, r, hr, fun t ht => hout.of_eq_error ht⟩

/-- A measurement that was left long behind the last one. -/
def behindGlobals : Globals := { fieldCount := 3, netifSubFieldCount := 200, numNeighbours := 255 }

/-- On the small board. -/
theorem walks_end_small :
    (∀ (path : CString) (child : DbNode) (nameBuf : NameBuf), ∃ N r,
      (∀ fuel ≥ N, dbFindNodeByPath smallDb fuel behindGlobals path child nameBuf = r) ∧
        ∀ t, r = .error t → t = .null ∨ (t = .bounds ∧ LongLookup smallEnv behindGlobals path)) ∧
    ∀ stack : Stack, ∃ N r, (∀ fuel ≥ N, dcadump smallDb stack fuel behindGlobals = r) ∧
      ∀ t, r = .error t → t = .null ∨
        (t = .bounds ∧ LongDump smallEnv (smallEnv.allAddrs behindGlobals) stack) :=
  walks_end {} smallEnv (by unfold Env.FirstThread Env.Live; decide) behindGlobals
    ⟨by decide, by decide, rfl, by decide⟩

end Dca
