import Mathlib.Data.List.Infix
import Dca.Db.Ways

/-!
# The text of a dump

`_tree_r` puts out one line for each node: two spaces for each level, the name, and then `/` or the
value of the leaf. From these lines the tree that the dump has gone through can be read back, as long
as the names and the values leave the lines and their parts apart (`dump_read_back`).
-/

namespace Dca

open CLib

/-! ## Writing -/

/-- What goes out for one node. -/
def Printed.chars (p : Printed) : List Char :=
  (List.replicate p.depth [' ', ' ']).flatten ++ '-' :: ' ' :: p.name.chars ++
    match p.type, p.text with
    | .null, _ => []
    | .inner, _ => ['/', '\n']
    | _, some text => ':' :: ' ' :: (text.chars ++ ['\n'])
    | _, none => ['\n']

/-- What goes out for the dump. -/
def dumpText (out : List Printed) : List Char := out.flatMap Printed.chars

/-! ## Reading -/

/-- What a line shows: the name, and the value of a leaf. -/
structure DumpLine where
  name : List Char
  value : Option (List Char)
  deriving DecidableEq

/-- The spaces at the front of a line, and what follows the dash. -/
def readIndent : List Char → Option (Nat × List Char)
  | ' ' :: ' ' :: l => (readIndent l).map fun x => (x.1 + 1, x.2)
  | '-' :: ' ' :: l => some (0, l)
  | _ => none

/-- What stands in front of the first colon that a space follows, and what stands behind them. -/
def splitValue : List Char → Option (List Char × List Char)
  | [] => none
  | c :: l =>
    if c = ':' ∧ l.head? = some ' ' then some ([], l.tail)
    else (splitValue l).map fun x => (c :: x.1, x.2)

/-- A line with its depth. -/
def readLine (l : List Char) : Option (Nat × DumpLine) := do
  let (depth, rest) ← readIndent l
  match splitValue rest with
  | some (name, value) => return (depth, ⟨name, some value⟩)
  | none => return (depth, ⟨rest.dropLast, none⟩)

/-- The tree that a text shows. -/
def readDump (text : List Char) : Option (Forest DumpLine) :=
  ((components '\n' text).mapM readLine).map (Forest.ofListing 0)

/-- What the line of an entry shows. -/
def Printed.line (p : Printed) : DumpLine := ⟨p.name.chars, p.text.map CString.chars⟩

/-- The name and the value of an entry leave the lines and their parts apart. -/
structure Printed.Plain (p : Printed) : Prop where
  name : '\n' ∉ p.name.chars
  colon : ¬ [':', ' '] <:+: p.name.chars
  text : ∀ text ∈ p.text, '\n' ∉ text.chars

instance Printed.Plain.decidable (p : Printed) : Decidable p.Plain :=
  decidable_of_iff (p.name.chars.contains '\n' = false ∧ ¬ [':', ' '] <:+: p.name.chars ∧
      p.text.all (fun text => !text.chars.contains '\n') = true) <| by
    constructor
    · rintro ⟨hname, hcolon, htext⟩
      exact ⟨by simpa using hname, hcolon, by simpa [Option.all_eq_true] using htext⟩
    · rintro ⟨hname, hcolon, htext⟩
      exact ⟨by simpa using hname, hcolon, by simpa [Option.all_eq_true] using htext⟩

/-- An inner node has no text, and a leaf has one. -/
def Printed.Typed (p : Printed) : Prop :=
  (p.type = .inner ∧ p.text = none) ∨
    ((p.type ≠ .null ∧ p.type ≠ .inner) ∧ ∃ text, p.text = some text)

/-! ## One line -/

theorem readIndent_spaces (depth : Nat) (l : List Char) :
    readIndent ((List.replicate depth [' ', ' ']).flatten ++ '-' :: ' ' :: l) = some (depth, l) := by
  induction depth with
  | zero => rfl
  | succ depth ih =>
    rw [List.replicate_succ, List.flatten_cons, List.append_assoc]
    simp only [List.cons_append, List.nil_append, readIndent, ih]
    rfl

/-- A name without a colon and a space behind it is passed over. -/
theorem splitValue_append {name : List Char} (h : ¬ [':', ' '] <:+: name) {rest : List Char}
    (hrest : rest.head? ≠ some ' ') :
    splitValue (name ++ rest) = (splitValue rest).map fun x => (name ++ x.1, x.2) := by
  induction name with
  | nil =>
    rw [List.nil_append]
    simp
  | cons c name ih =>
    have hname : ¬ [':', ' '] <:+: name := fun hinfix => h (List.infix_cons hinfix)
    have hnot : ¬ (c = ':' ∧ (name ++ rest).head? = some ' ') := by
      rintro ⟨rfl, hhead⟩
      cases name with
      | nil => exact hrest hhead
      | cons d name =>
        obtain rfl : d = ' ' := Option.some.inj hhead
        exact h ⟨[], name, rfl⟩
    rw [List.cons_append, splitValue, if_neg hnot, ih hname, Option.map_map]
    rfl

/-- **An entry is one line, from which it can be read.** -/
theorem Printed.readLine_chars {p : Printed} (h : p.Plain) (htyped : p.Typed) :
    ∃ l, p.chars = l ++ ['\n'] ∧ '\n' ∉ l ∧ l ≠ [] ∧ readLine l = some (p.depth, p.line) := by
  have hspaces : '\n' ∉ (List.replicate p.depth [' ', ' ']).flatten := by
    intro hmem
    obtain ⟨l, hl, hmem⟩ := List.mem_flatten.mp hmem
    rw [List.eq_of_mem_replicate hl] at hmem
    revert hmem
    decide
  rcases htyped with ⟨htype, htext⟩ | ⟨⟨hnull, hinner⟩, text, htext⟩
  · refine ⟨(List.replicate p.depth [' ', ' ']).flatten ++ '-' :: ' ' :: (p.name.chars ++ ['/']),
      ?_, ?_, by simp, ?_⟩
    · simp [Printed.chars, htype]
    · have hname := h.name
      simp [hspaces, hname]
    · have hsplit : splitValue (p.name.chars ++ ['/']) = none :=
        splitValue_append h.colon (by simp)
      simp [readLine, readIndent_spaces, hsplit, Printed.line, htext]
  · have hvalue : '\n' ∉ text.chars := h.text text htext
    refine ⟨(List.replicate p.depth [' ', ' ']).flatten
      ++ '-' :: ' ' :: (p.name.chars ++ ':' :: ' ' :: text.chars), ?_, ?_, by simp, ?_⟩
    · cases htype : p.type with
      | null => exact absurd htype hnull
      | inner => exact absurd htype hinner
      | int | float | str => simp [Printed.chars, htype, htext]
    · have hname := h.name
      simp [hspaces, hname, hvalue]
    · have hsplit : splitValue (p.name.chars ++ ':' :: ' ' :: text.chars)
          = some (p.name.chars ++ [], text.chars) := splitValue_append h.colon (by simp)
      simp [readLine, readIndent_spaces, hsplit, Printed.line, htext]

/-- **The lines of a dump.** -/
theorem readLines_dumpText {out : List Printed} (h : ∀ p ∈ out, p.Plain ∧ p.Typed) :
    (components '\n' (dumpText out)).mapM readLine
      = some (out.map fun p => (p.depth, p.line)) := by
  induction out with
  | nil => rfl
  | cons p out ih =>
    obtain ⟨⟨hplain, htyped⟩, hout⟩ := List.forall_mem_cons.mp h
    obtain ⟨l, hchars, hnl, hne, hread⟩ := p.readLine_chars hplain htyped
    have hsplit : dumpText (p :: out) = l ++ '\n' :: dumpText out := by
      rw [dumpText, List.flatMap_cons, hchars, List.append_assoc]
      rfl
    rw [hsplit, components_append_sep hne hnl, List.mapM_cons, hread, ih hout]
    rfl

/-! ## The tree -/

section Tree

variable {cfg : Config} {env : Env} {stack : Stack}

/-- Nodes that are there have a type. -/
theorem type_ne_null {node : DbNode} (h : Sound (.ofEnv cfg env) node) (hne : node ≠ .null)
    {g : Globals} {type : DbNodeType} (htype : dbNodeGetType (.ofEnv cfg env) g node = .ok type) :
    type ≠ .null := by
  cases node with
  | null => exact absurd rfl hne
  | root rank =>
    obtain rfl := Except.ok.inj htype
    simp
  | fl flIdx subIdx isRoot =>
    obtain ⟨e, he, hs⟩ := h
    cases isRoot with
    | true =>
      obtain rfl := Except.ok.inj htype
      simp
    | false =>
      obtain ⟨s, hs⟩ := hs rfl
      rw [static_type he hs] at htype
      obtain rfl := Except.ok.inj htype
      rcases typed_ofEnv (List.mem_of_getElem? he) (List.mem_of_getElem? hs) with ht | ht | ht <;>
        simp [ht.1]
  | ps pid level =>
    obtain rfl := Except.ok.inj htype
    cases level with
    | root | process => simp [psNodeGettype]
    | field =>
      simp only [psNodeGettype]
      split_ifs <;> simp
  | saul dev level =>
    obtain rfl := Except.ok.inj htype
    cases level <;> simp [saulNodeGettype]
  | netif iface level =>
    obtain rfl := Except.ok.inj htype
    simp only [netifNodeGettype]
    split_ifs <;> simp

theorem typed_of_print {v : Visit} {addrs : List Ipv6Addr}
    (h : v.Sound (.ofEnv cfg env) addrs) {depth : Nat} {p : Printed}
    (hp : v.print (.ofEnv cfg env) stack depth = .ok p) : p.Typed := by
  obtain ⟨name, -, hp⟩ := bind_eq_ok.mp hp
  obtain ⟨type, htype, hp⟩ := bind_eq_ok.mp hp
  have hne := type_ne_null h.node h.ne_null htype
  cases type with
  | null => exact absurd rfl hne
  | inner =>
    obtain rfl := Except.ok.inj hp
    exact Or.inl ⟨rfl, rfl⟩
  | int | float | str =>
    obtain ⟨r, -, hp⟩ := bind_eq_ok.mp hp
    obtain rfl := Except.ok.inj hp
    exact Or.inr ⟨⟨by simp, by simp⟩, _, rfl⟩

/-- What a dump prints for a visit is this line. -/
def Visit.Shows (db : Db) (stack : Stack) (v : Visit) (line : DumpLine) : Prop :=
  ∃ depth p, v.print db stack depth = .ok p ∧ p.line = line

/--
**A dump can be read back.** If no name and no value of the dump takes lines or their parts together,
then the tree that its text shows is the tree that the dump has gone through, each node with its name
and each leaf with its value.
-/
theorem dump_read_back (hfirst : env.FirstThread) {g g' : Globals} (hg : g.InRange) {fuel : Nat}
    {out : List Printed} (hdump : dcadump (.ofEnv cfg env) stack fuel g = .ok (g', out))
    (hplain : ∀ p ∈ out, p.Plain) :
    ∃ tree, readDump (dumpText out) = some tree ∧
      Forest.Alike (Visit.Shows (.ofEnv cfg env) stack)
        (.node ⟨g, dbGetRoot⟩ (rootDump (.ofEnv cfg env) g).2 .nil) tree := by
  obtain ⟨-, hprints⟩ := prints_of_dcadump hfirst hg hdump
  have hforest : Forest.All (Visit.Sound (.ofEnv cfg env) (env.allAddrs g)) _ :=
    rootDump_sound hfirst (caches_allAddrs env g) (known_allAddrs env g)
  have htyped : ∀ p ∈ out, p.Plain ∧ p.Typed := by
    intro p hp
    obtain ⟨x, hx, hprint⟩ := exists_left_of_forall₂ hprints hp
    exact ⟨hplain p hp, typed_of_print (hforest.of_mem_preorder hx) hprint⟩
  have hlines : List.Forall₂ (fun (x : Nat × Visit) (y : Nat × DumpLine) => x.1 = y.1 ∧
        Visit.Shows (.ofEnv cfg env) stack x.2 y.2)
      ((Forest.node ⟨g, dbGetRoot⟩ (rootDump (.ofEnv cfg env) g).2 .nil).preorder 0)
      (out.map fun p => (p.depth, p.line)) := by
    refine List.forall₂_map_right_iff.mpr (hprints.imp fun x p hp => ?_)
    exact ⟨(depth_name_of_print hp).1.symm, x.1, p, hp, rfl⟩
  obtain ⟨tree, hlisting, halike⟩ := Forest.alike_of_preorder hlines
  refine ⟨tree, ?_, halike⟩
  rw [readDump, readLines_dumpText htyped, hlisting, Option.map_some, Forest.ofListing_preorder]

theorem dump_read_back_small :
    ∃ g' out tree, dcadump smallDb emptyStack 60 {} = .ok (g', out) ∧
      readDump (dumpText out) = some tree ∧
      Forest.Alike (Visit.Shows smallDb emptyStack)
        (.node ⟨{}, dbGetRoot⟩ (rootDump smallDb {}).2 .nil) tree := by
  have hfirst : smallEnv.FirstThread := by
    unfold Env.FirstThread Env.Live
    decide
  have hrange : Globals.InRange {} := by
    constructor <;> decide
  have hrun : ∃ r, dcadump smallDb emptyStack 60 {} = .ok r ∧ ∀ p ∈ r.2, p.Plain :=
    exists_ok_of_any (by decide +kernel)
  obtain ⟨⟨g', out⟩, hdump, hplain⟩ := hrun
  obtain ⟨tree, hread, halike⟩ := dump_read_back hfirst hrange hdump hplain
  exact ⟨g', out, tree, hdump, hread, halike⟩

end Tree

end Dca
