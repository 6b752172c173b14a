import Dca.Db.Ifaces
import Dca.Db.Stacks
import Dca.Lib.Iterator

/-!
# One dump after another

A dump leaves `_field_count` at its start, `_netif_field_count` behind the fields of the first
interface and the neighbours of that interface in the list. The next dump puts all of it to the same
values again, so it prints what every later one prints, whatever its stack holds (`dump_stacks`).
-/

namespace Dca

open CLib

/-! ## What a dump leaves -/

theorem foldl_addList_of_mem {ips : List Ipv6Addr} {l : List NeighborEntryl}
    (h : ∀ a ∈ ips, hasAddr l a) : ips.foldl netifNodeAddList l = l := by
  induction ips with
  | nil => rfl
  | cons a ips ih =>
    obtain ⟨ha, h⟩ := List.forall_mem_cons.mp h
    rw [List.foldl_cons, netifNodeAddList, if_pos ha]
    exact ih h

theorem hasAddr_addList {l : List NeighborEntryl} {a : Ipv6Addr} (b : Ipv6Addr)
    (h : hasAddr l a) : hasAddr (netifNodeAddList l b) a := by
  unfold netifNodeAddList
  split_ifs
  · exact h
  · simp only [hasAddr, insertEntry, List.any_cons, Bool.or_eq_true] at h ⊢
    exact Or.inr h

theorem hasAddr_foldl (ips : List Ipv6Addr) {l : List NeighborEntryl} {a : Ipv6Addr}
    (h : hasAddr l a ∨ a ∈ ips) : hasAddr (ips.foldl netifNodeAddList l) a := by
  induction ips generalizing l with
  | nil =>
    rcases h with h | h
    · exact h
    · cases h
  | cons b ips ih =>
    refine ih ?_
    rcases h with h | h
    · exact Or.inl (hasAddr_addList b h)
    · rcases List.mem_cons.mp h with rfl | h
      · left
        unfold netifNodeAddList
        split_ifs with hmem
        · exact hmem
        · simp [hasAddr, insertEntry]
      · exact Or.inr h

/-- Finding the same neighbours again changes nothing. -/
theorem foldl_addList_twice (ips : List Ipv6Addr) (l : List NeighborEntryl) :
    ips.foldl netifNodeAddList (ips.foldl netifNodeAddList l) = ips.foldl netifNodeAddList l :=
  foldl_addList_of_mem fun _ ha => hasAddr_foldl ips (Or.inr ha)

section Behind

variable {env : Env} {n : Netif}

/-- What the dump of the interfaces leaves, if there is one. -/
def behindIfaces (env : Env) (n : Netif) (g : Globals) : Globals :=
  { g with
    netifFieldCount := 4
    netifSubFieldCount := 1
    numNeighbours := 0
    neighbours := (env.nibNc n.id).foldl netifNodeAddList g.neighbours }

theorem behindIfaces_twice (g : Globals) :
    behindIfaces env n (behindIfaces env n g) = behindIfaces env n g := by
  simp only [behindIfaces, foldl_addList_twice]

theorem afterFields_step (env : Env) (i k : Nat) {g : Globals} {x : UInt8} (hne : x ≠ 3) :
    afterFields env i (k + 1) { g with netifFieldCount := x }
      = afterFields env i k { g with netifFieldCount := x + 1 } := by
  rw [afterFields, afterValue_of_ne hne]

/-- The neighbours are counted in front of the last field. -/
theorem afterFields_count (hn : env.ifaces[0]? = some n) {g : Globals} (h : g.netifFieldCount = 3) :
    afterFields env 0 1 g = { g with
      netifFieldCount := 4
      numNeighbours := 0
      neighbours := (env.nibNc n.id).foldl netifNodeAddList g.neighbours } := by
  obtain ⟨-, hsub, hfield, hsaul⟩ :=
    foldl_countNeighbour_frame (env.nibNc n.id) { g with numNeighbours := 0 }
  have hlist := neighbours_foldl (env.nibNc n.id) { g with numNeighbours := 0 }
  have hcount : afterValue env g (.netif (some 0) .field)
      = (env.nibNc n.id).foldl countNeighbour { g with numNeighbours := 0 } := by
    simp only [afterValue, h, if_true, hn]
  simp only [afterFields, hcount, hsub, hfield, hsaul, hlist]
  rw [h]
  rfl

/-- What the fields of an interface leave. -/
theorem afterFields_first (hn : env.ifaces[0]? = some n) (g : Globals) :
    afterFields env 0 4 (dbNewNetifNode env g).1 = behindIfaces env n g := by
  calc afterFields env 0 4 { g with netifFieldCount := 0, netifSubFieldCount := 1 }
      = afterFields env 0 3 { g with netifFieldCount := 1, netifSubFieldCount := 1 } :=
        afterFields_step env 0 3 (g := { g with netifSubFieldCount := 1 }) (by decide)
    _ = afterFields env 0 2 { g with netifFieldCount := 2, netifSubFieldCount := 1 } :=
        afterFields_step env 0 2 (g := { g with netifSubFieldCount := 1 }) (by decide)
    _ = afterFields env 0 1 { g with netifFieldCount := 3, netifSubFieldCount := 1 } :=
        afterFields_step env 0 1 (g := { g with netifSubFieldCount := 1 }) (by decide)
    _ = behindIfaces env n g := afterFields_count hn rfl

/-- Behind the first interface only the number of neighbours is set. -/
theorem afterIfaces_rest (env : Env) (k i : Nat) {g : Globals} (hlast : g.netifFieldCount = 4)
    (hnum : g.numNeighbours = 0) : afterIfaces env k i g = g := by
  induction k generalizing i with
  | zero => rfl
  | succ k ih =>
    have hleft : ifaceFieldsLeft g = 0 := by rw [ifaceFieldsLeft, hlast]; rfl
    have hsame : afterFields env i 0 g = g := by rw [afterFields, ← hnum]
    rw [afterIfaces, hleft, hsame, ih]

/-- **What the dump of the interfaces leaves.** -/
theorem afterIfaces_eq (hn : env.ifaces[0]? = some n) (g : Globals) :
    afterIfaces env env.ifaces.length 0 (dbNewNetifNode env g).1 = behindIfaces env n g := by
  obtain ⟨k, hk⟩ : ∃ k, env.ifaces.length = k + 1 := by
    cases hifaces : env.ifaces with
    | nil =>
      rw [hifaces] at hn
      cases hn
    | cons _ rest => exact ⟨rest.length, rfl⟩
  rw [hk, afterIfaces]
  show afterIfaces env k 1 (afterFields env 0 4 (dbNewNetifNode env g).1) = _
  rw [afterFields_first hn]
  exact afterIfaces_rest env k 1 rfl rfl

/-- The dump of the interfaces. -/
def ifacesDump (env : Env) (g : Globals) : Globals :=
  afterIfaces env env.ifaces.length 0 (dbNewNetifNode env g).1

theorem ifacesDump_twice (g : Globals) :
    ifacesDump env (ifacesDump env g) = ifacesDump env g := by
  cases hifaces : env.ifaces with
  | nil => simp only [ifacesDump, hifaces, List.length_nil, afterIfaces, dbNewNetifNode]
  | cons n rest =>
    have hn : env.ifaces[0]? = some n := by rw [hifaces]; rfl
    simp only [ifacesDump, afterIfaces_eq hn, behindIfaces_twice]

/-- **What a dump leaves, by the options of the build.** -/
theorem rootDump_eq (cfg : Config) (env : Env) (g : Globals) :
    (rootDump (.ofEnv cfg env) g).1 =
      let g := if cfg.ps then { g with fieldCount := 0 } else g
      if cfg.network then ifacesDump env g else g := by
  obtain ⟨ps, network, saul⟩ := cfg
  cases ps <;> cases network <;> cases saul <;> rfl

/-- **A dump after a dump leaves what it finds.** -/
theorem rootDump_twice (cfg : Config) (env : Env) (g : Globals) :
    (rootDump (.ofEnv cfg env) (rootDump (.ofEnv cfg env) g).1).1
      = (rootDump (.ofEnv cfg env) g).1 := by
  have hzero : ∀ g : Globals, g.fieldCount = 0 → { g with fieldCount := 0 } = g := by
    intro g h
    rw [← h]
  have hifaces : ∀ g : Globals, g.fieldCount = 0 → (ifacesDump env g).fieldCount = 0 := by
    intro g h
    rw [ifacesDump, afterIfaces_fieldCount]
    exact h
  simp only [rootDump_eq]
  split_ifs with hps hnetwork hnetwork
  · rw [hzero _ (hifaces _ rfl), ifacesDump_twice]
  · exact ifacesDump_twice g
  · rfl
  · rfl

end Behind

/-! ## What dumps print -/

section Dumps

variable {cfg : Config} {env : Env} {g : Globals}

/-- The dumps behind one that leaves `g'`. -/
theorem dumps_from (hfirst : env.FirstThread) {g' : Globals} (hg' : g'.InRange)
    (hsame : (rootDump (.ofEnv cfg env) g').1 = g') (calls : List (Stack × Nat))
    {outs : List (List Printed)}
    (h : outputs (fun g (x : Stack × Nat) => dcadump (.ofEnv cfg env) x.1 x.2 g) g' calls
      = .ok outs) :
    List.Forall₂ (fun x out => dcadump (.ofEnv cfg env) x.1 x.2 g' = .ok (g', out)) calls outs := by
  induction calls generalizing outs with
  | nil =>
    obtain rfl := Except.ok.inj h
    exact .nil
  | cons x calls ih =>
    obtain ⟨⟨g₁, out⟩, hdump, h⟩ := bind_eq_ok.mp h
    obtain ⟨rest, hrest, h⟩ := bind_eq_ok.mp h
    obtain rfl := Except.ok.inj h
    obtain ⟨rfl, -⟩ := prints_of_dcadump hfirst hg' hdump
    rw [hsame] at hrest hdump
    exact .cons hdump (ih hrest)

/--
**Dumps settle.** From the second one on, all dumps start in the same state and leave it as it is, so
what they print does not change any more. If no cache names a neighbour twice, it does not depend on
what the stacks hold either.
-/
theorem dumps_settle (hfirst : env.FirstThread) (hg : g.InRange) (call : Stack × Nat)
    (calls : List (Stack × Nat)) (outs : List (List Printed))
    (h : outputs (fun g (x : Stack × Nat) => dcadump (.ofEnv cfg env) x.1 x.2 g) g (call :: calls)
      = .ok outs) :
    ∃ g' first later, dcadump (.ofEnv cfg env) call.1 call.2 g = .ok (g', first) ∧
      outs = first :: later ∧
      List.Forall₂ (fun x out => dcadump (.ofEnv cfg env) x.1 x.2 g' = .ok (g', out))
        calls later ∧
      (env.CachesDistinct → ∀ out ∈ later, ∀ out' ∈ later, out = out') := by
  obtain ⟨⟨g', first⟩, hdump, h⟩ := bind_eq_ok.mp h
  obtain ⟨later, hlater, h⟩ := bind_eq_ok.mp h
  obtain rfl := Except.ok.inj h
  obtain ⟨rfl, -⟩ := prints_of_dcadump hfirst hg hdump
  have htour : TourTo (.ofEnv cfg env) DbNode.null g dbGetRoot _ _ ∧ Globals.InRange _ :=
    tourTo_root hfirst hg
  have hsettled := dumps_from hfirst htour.2 (rootDump_twice cfg env g) calls hlater
  refine ⟨_, first, later, hdump, rfl, hsettled, fun hdistinct out hout out' hout' => ?_⟩
  obtain ⟨x, -, hx⟩ := exists_left_of_forall₂ hsettled hout
  obtain ⟨x', -, hx'⟩ := exists_left_of_forall₂ hsettled hout'
  exact dump_stacks hfirst hdistinct htour.2 hx hx'

/-- A stack with arrays that hold no terminator. -/
def fullStack : Stack := ⟨.ps 1 .root, fullBuf, ⟨List.replicate dcaShellStrbufSize 'x', rfl⟩⟩

/-- The second dump and the third one find different things in their arrays. -/
theorem dumps_settle_small :
    ∃ outs, outputs (fun g (x : Stack × Nat) => dcadump smallDb x.1 x.2 g) { fieldCount := 3 }
        [(emptyStack, 60), (emptyStack, 60), (fullStack, 60)] = .ok outs ∧
      ∃ first later, outs = [first, later, later] := by
  have hrun : ∃ outs, outputs (fun g (x : Stack × Nat) => dcadump smallDb x.1 x.2 g)
      { fieldCount := 3 } [(emptyStack, 60), (emptyStack, 60), (fullStack, 60)] = .ok outs ∧
        outs.length = 3 := exists_ok_of_any (by decide +kernel)
  have hfirst : smallEnv.FirstThread := by
    unfold Env.FirstThread Env.Live
    decide
  have hrange : Globals.InRange { fieldCount := 3 } := by
    constructor <;> decide
  obtain ⟨outs, houts, -⟩ := hrun
  obtain ⟨g', first, later, -, rfl, hlater, hsame⟩ := dumps_settle hfirst hrange _ _ outs houts
  cases hlater with
  | cons h₁ hrest =>
    cases hrest with
    | cons h₂ hnil =>
      cases hnil
      obtain rfl := hsame smallEnv_cachesDistinct _ List.mem_cons_self _
        (List.mem_cons_of_mem _ List.mem_cons_self)
      exact ⟨_, houts, first, _, rfl⟩

end Dumps

end Dca
