import Dca.Db.Decimal
import Dca.Db.Shown
import Dca.Db.Ways

/-!
# The traversal of the interfaces

`_netif_num_neighbours` leads the traversal of a folder `neighbours` back through the list, and the
counters are set back behind it. What can go wrong is that the text of an address does not fit into
a name. The position among the fields is only set back when the node of all interfaces is created,
so that every interface but the first one is shown without its fields.
-/

namespace Dca

open CLib

section Neighbours

/-- The list has `n` entries in front whose addresses fit into a name. -/
def AddressesFit (env : Env) (l : List NeighborEntryl) (n : Nat) : Prop :=
  ∀ k < n, ∃ e ∈ l[k]?, (env.ipv6AddrToStr e.addr).length < dbNodeNameMax

instance (env : Env) (l : List NeighborEntryl) (n : Nat) : Decidable (AddressesFit env l n) :=
  Nat.decidableBallLT n _

/--
The traversal of the folder `neighbours` shows the neighbours from the one `_num_neighbours` stands
at back to the first one, and what the list has for each. It leaves no neighbour, and the folder has
no further child.
-/
def TraversesNeighbours (db : Db) (i : Nat) (g : Globals) : Prop :=
  ∀ (stack : Stack) (depth : Nat), ∃ N node,
    (∀ fuel ≥ N, treeR db stack fuel depth g (.netif (some i) .field)
      = .ok ({ g with numNeighbours := 0 }, node,
          printedNeighbours db.env depth (g.neighbours.take g.numNeighbours.toNat).reverse)) ∧
    ∀ child, dbNodeGetNextChild db ⟨{ g with numNeighbours := 0 }, node, child⟩
      = .ok ⟨{ g with numNeighbours := 0 }, node, .null⟩

variable {db : Db} {i : Nat} {g : Globals}

theorem AddressesFit.take {env : Env} {l : List NeighborEntryl} {n : Nat}
    (h : AddressesFit env l n) :
    n ≤ l.length ∧ ∀ e ∈ l.take n, (env.ipv6AddrToStr e.addr).length < dbNodeNameMax := by
  constructor
  · by_contra hlt
    obtain ⟨e, he, -⟩ := h l.length (by omega)
    rw [List.getElem?_eq_none (Nat.le_refl _)] at he
    cases he
  · intro e he
    obtain ⟨k, hk, rfl⟩ := List.mem_take_iff_getElem.mp he
    obtain ⟨e', he', hlt⟩ := h k (by omega)
    rw [List.getElem?_eq_getElem (by omega)] at he'
    rw [Option.some.inj he']
    exact hlt

/-- A name that can be printed from every array fits. -/
theorem nameFits_of_print {node : DbNode} {depth : Nat}
    (h : ∀ stack, ∃ p, Visit.print db stack depth ⟨g, node⟩ = .ok p) : NameFits db g node := by
  intro b
  obtain ⟨p, hp⟩ := h ⟨.null, b, Buf.zero _⟩
  obtain ⟨name, hname, -⟩ := bind_eq_ok.mp hp
  obtain ⟨b', hb', hname⟩ := bind_eq_ok.mp hname
  obtain ⟨k, hk, -⟩ := bind_eq_ok.mp hname
  exact ⟨b', b'.str, hb', Buf.shows_of_strlen (inBounds_eq_ok.mp hk)⟩

/-- **The addresses of the neighbours that are shown fit.** -/
theorem addressesFit_of_print (depth n : Nat) {g : Globals} (hn : g.numNeighbours.toNat = n)
    (hprint : ∀ stack, ∀ x ∈ (neighbourForest i n g).preorder depth,
      ∃ p, x.2.print db stack x.1 = .ok p) : AddressesFit db.env g.neighbours n := by
  induction n generalizing g with
  | zero => exact fun k hk => absurd hk (Nat.not_lt_zero k)
  | succ n ih =>
    simp only [neighbourForest, Forest.preorder, List.forall_mem_cons, List.forall_mem_append]
      at hprint
    have hself : NameFits db { g with netifSubFieldCount := 2 } (.netif (some i) .neighbour) :=
      nameFits_of_print fun stack => (hprint stack).1
    obtain ⟨e, he, hlt⟩ := (nameFits_netif _ _ _).mp hself
    rw [entryAt, hn, Nat.add_sub_cancel] at he
    have hrest := ih (g := { g with numNeighbours := g.numNeighbours - 1 })
      (numNeighbours_pred hn).2 fun stack => (hprint stack).2.2
    intro k hk
    rcases Nat.lt_succ_iff_lt_or_eq.mp hk with hk | rfl
    · exact hrest k hk
    · exact ⟨e, he, hlt⟩

/-- Only then do they come to their end. -/
theorem addressesFit_of_traverses (hlast : g.netifFieldCount = 4) (hsub : g.netifSubFieldCount = 1)
    (h : TraversesNeighbours db i g) :
    AddressesFit db.env g.neighbours g.numNeighbours.toNat := by
  refine addressesFit_of_print (i := i) 1 _ rfl fun stack => ?_
  obtain ⟨N, node, htree, -⟩ := h stack 0
  have htour : TourTo db stack.node g (.netif (some i) .field) _ _ :=
    tourTo_neighbours i hlast fun _ => hsub
  have hprinted := (htour.prints_of_eq_ok (htree N (Nat.le_refl N))).print_eq_ok
  simp only [Forest.preorder, List.append_nil, List.forall_mem_cons] at hprinted
  exact hprinted.2

/--
**The folder `neighbours` is traversed depth first exactly when the addresses fit into names.**
-/
theorem traversesNeighbours_iff (db : Db) (i : Nat) (g : Globals) (hlast : g.netifFieldCount = 4)
    (hsub : g.netifSubFieldCount = 1) (hpos : 1 ≤ g.numNeighbours) :
    TraversesNeighbours db i g ↔ AddressesFit db.env g.neighbours g.numNeighbours.toNat := by
  refine ⟨addressesFit_of_traverses hlast hsub, fun hfit stack depth => ?_⟩
  obtain ⟨hle, htexts⟩ := hfit.take
  have hne : g.numNeighbours ≠ 0 := by
    rintro hzero
    rw [hzero] at hpos
    exact absurd hpos (by decide)
  have hprints : Prints db stack (depth + 1) (neighbourForest i g.numNeighbours.toNat g) _ :=
    prints_neighbours i _ hlast rfl hle htexts
  obtain ⟨c, hfirst, htours⟩ : ToursTo db stack.node ⟨g, .netif (some i) .field, stack.node⟩ _ _ :=
    toursTo_neighbours i hlast hne hsub stack.node
  have hself : Visit.print db stack depth ⟨g, .netif (some i) .field⟩ = _ :=
    print_neighbours i hlast
  have hbelow : Ends (fun _ => False) _ fun fuel => treeChildren db stack fuel depth c :=
    htours.prints hprints
  have hends : Ends (fun _ => False) _ fun fuel =>
      treeR db stack fuel depth g (.netif (some i) .field) :=
    ends_folder (type_neighbours i hlast) hfirst (by rw [hself]; trivial)
      (hbelow.mono (fun _ => id) fun r hr =>
        ⟨congrArg Prod.fst hr, by rw [hr]; exact hprints⟩)
  obtain ⟨N, result, hresult, hout⟩ := hends.exists_fuel
  cases result with
  | error t => exact hout.elim
  | ok r =>
    obtain ⟨g', node, out⟩ := r
    obtain ⟨rfl, rfl, hout⟩ := hout
    obtain rfl := hout.unique (.node hself hprints)
    refine ⟨N, _, hresult, fun child => ?_⟩
    have hsame : ({ g with netifSubFieldCount := 1, numNeighbours := 0 } : Globals)
        = { g with numNeighbours := 0 } := by rw [← hsub]
    rw [next_neighbour_end child rfl]
    exact congrArg (fun g => Except.ok (Cursor.mk g _ .null)) hsame

end Neighbours

/-- The folder `neighbours` of the first interface, with two neighbours. -/
def twoNeighbours : Globals where
  netifFieldCount := 4
  netifSubFieldCount := 1
  numNeighbours := 2
  neighbours := [⟨linkLocal 2, 4000, 0, 7⟩, ⟨linkLocal 1, 2000, 50, 0⟩]

theorem traversesNeighbours_small : TraversesNeighbours smallDb 0 twoNeighbours :=
  (traversesNeighbours_iff smallDb 0 twoNeighbours rfl rfl (by decide)).mpr (by decide)

/-- The small board in a network where the text of an address has 38 characters. -/
def longAddressEnv : Env where
  __ := smallEnv
  ipv6AddrToStr := fun _ => .lit "2001:db8:1f20:4d31:a8c2:75ff:fe0b:91d4"
  ipv6AddrToStr_fits := fun _ => by decide

/-- The text of an address is written past the name. -/
theorem not_traversesNeighbours :
    ¬ TraversesNeighbours (.ofEnv {} longAddressEnv) 0 twoNeighbours := by
  intro h
  have hfit := addressesFit_of_traverses rfl rfl h
  exact absurd hfit (by decide)

/-! ## The interfaces -/

/-- The fields of `device_property_t` in their order, with their types and the texts of the values. -/
def Netif.fields (env : Env) (n : Netif) : List (String × DbNodeType × Option CString) :=
  [("pid", .int, some (intText n.id)),
    ("inet6 addr", .str, some (n.addrText env)),
    ("Link type", .str, some n.linkText),
    ("num_neighbours", .int, some (intText (env.nibNc n.id).length)),
    ("neighbours", .inner, none)]

/-- What a dump prints for an interface and its fields. -/
def Netif.printed (env : Env) (depth : Nat) (n : Netif) : List Printed :=
  ⟨depth, n.name, .inner, none⟩
    :: (n.fields env).map fun (name, type, text) => ⟨depth + 1, .lit name, type, text⟩

/--
The traversal of a new node `netif` shows the interfaces in their order and each with its fields,
where it shows anything above the neighbours.
-/
def ShowsIfaces (db : Db) (g : Globals) : Prop :=
  ∀ (stack : Stack) (depth : Nat), ∃ N r,
    (∀ fuel ≥ N, treeR db stack fuel depth (dbNewNetifNode db.env g).1 (dbNewNetifNode db.env g).2
      = .ok r) ∧
    r.2.2.filter (fun p => p.depth < depth + 3)
      = ⟨depth, .lit "netif", .inner, none⟩ :: db.env.ifaces.flatMap (·.printed db.env (depth + 1))

/-! ### The number of lines -/

section Count

variable {db : Db} {stack : Stack} {depth : Nat}

theorem Prints.countP {forest : Forest Visit} {out : List Printed}
    (h : Prints db stack depth forest out) (k : Nat) :
    out.countP (fun p => p.depth < depth + k) = forest.upper k := by
  rw [← Forest.countP_preorder forest k depth]
  unfold Prints at h
  generalize forest.preorder depth = visits at h
  induction h with
  | nil => rfl
  | @cons x p visits out hp _ ih =>
    rw [List.countP_cons, List.countP_cons, ih, (depth_name_of_print hp).1]

/-- What is printed below a node is deeper. -/
theorem Prints.le_depth {forest : Forest Visit} {out : List Printed}
    (h : Prints db stack depth forest out) {p : Printed} (hp : p ∈ out) : depth ≤ p.depth := by
  obtain ⟨x, hx, hprint⟩ := exists_left_of_forall₂ h hp
  rw [(depth_name_of_print hprint).1]
  exact Forest.le_of_mem_preorder hx

theorem upper_ifaceForest (env : Env) (i n : Nat) (g : Globals) :
    (ifaceForest env i n g).upper 1 = n + 1 := by
  induction n generalizing g with
  | zero => rw [ifaceForest, Forest.upper, Forest.upper_zero, Forest.upper_nil]
  | succ n ih =>
    rw [ifaceForest, Forest.upper, ih, Forest.upper_zero]
    omega

/-- An interface that is entered at the last field shows nothing but its neighbours. -/
theorem upper_lastFields (env : Env) (n : Nat) {i : Nat} {g : Globals}
    (hlast : g.netifFieldCount = 4) : (netifForest env n i g).upper 2 = 2 * n := by
  induction n generalizing i g with
  | zero => exact Forest.upper_nil 2
  | succ n ih =>
    have hleft : ifaceFieldsLeft g = 0 := by rw [ifaceFieldsLeft, hlast]; rfl
    have hrest : (netifForest env n (i + 1) (afterFields env i 0 g)).upper 2 = 2 * n := ih hlast
    rw [netifForest, Forest.upper, upper_ifaceForest, hleft, hrest]
    omega

/-- **Only the first interface shows its fields.** -/
theorem upper_netifForest (env : Env) (n : Nat) {i : Nat} {g : Globals}
    (hzero : g.netifFieldCount = 0) : (netifForest env (n + 1) i g).upper 2 = 6 + 2 * n := by
  have hleft : ifaceFieldsLeft g = 4 := by rw [ifaceFieldsLeft, hzero]; rfl
  obtain ⟨hlast, -, -, -, -⟩ := afterFields_frame env i 4 (g := g) (by rw [hzero]; rfl)
  rw [netifForest, Forest.upper, upper_ifaceForest, hleft, upper_lastFields env n hlast]

theorem length_flatMap_printed (env : Env) (ifaces : List Netif) (depth : Nat) :
    (ifaces.flatMap (·.printed env depth)).length = 6 * ifaces.length := by
  induction ifaces with
  | nil => rfl
  | cons n ifaces ih =>
    rw [List.flatMap_cons, List.length_append, ih, List.length_cons]
    show 6 + _ = _
    omega

end Count

/-! ### The lines -/

section Lines

variable {db : Db} {stack : Stack} {depth : Nat} {g : Globals} {i : Nat} {n : Netif}

theorem print_netifInt {field : String} (hname : netifFieldName g.netifFieldCount = some field)
    (hint : netifNodeGettype g .field = .int) {g' : Globals} {v : Int}
    (hv : netifNodeGetintValue db.env g (some i) = .ok (g', v)) :
    Visit.print db stack depth ⟨g, .netif (some i) .field⟩
      = .ok ⟨depth, .lit field, .int, some (intText v)⟩ := by
  have htype : dbNodeGetType db g (.netif (some i) .field) = .ok .int := congrArg Except.ok hint
  have hvalue : dbNodeGetIntValue db g (.netif (some i) .field) = .ok (g', v) :=
    (intValue_netif htype).trans hv
  rw [print_leaf htype (by simp), (names_netifField i hname).print, ok_bind,
    printContent_int htype hvalue, ok_bind]
  rfl

/-- A text that is well formed and shorter than the array is what is printed. -/
theorem print_netifStr {field : String} (hname : netifFieldName g.netifFieldCount = some field)
    (hstr : netifNodeGettype g .field = .str) {text : CString}
    (htext : strText db g (.netif (some i) .field) = some text)
    (hwf : TextWellFormed db g (.netif (some i) .field) stack.str)
    (hlt : text.length < dcaShellStrbufSize) :
    Visit.print db stack depth ⟨g, .netif (some i) .field⟩
      = .ok ⟨depth, .lit field, .str, some text⟩ := by
  have htype : dbNodeGetType db g (.netif (some i) .field) = .ok .str := congrArg Except.ok hstr
  obtain ⟨text', shown, g', b, htext', hval, hs, hfor⟩ := hwf
  obtain rfl := Option.some.inj (((leafText_str htype).trans htext).symm.trans htext')
  obtain rfl : shown = text := by rwa [ShownFor, if_pos hlt] at hfor
  have hcontent : printNodeContent db stack g (.netif (some i) .field) = .ok (g', shown) := by
    simp only [printNodeContent, hval, ok_bind, hs.strlen_eq, hs.str_eq, inBounds, pure_eq_ok]
  rw [print_leaf htype (by simp), (names_netifField i hname).print, ok_bind, hcontent, ok_bind]
  rfl

/-- The shared variables when the folder `neighbours` of a new interface comes next. -/
def counted (env : Env) (n : Netif) (g : Globals) : Globals :=
  { (env.nibNc n.id).foldl countNeighbour { g with netifFieldCount := 3, numNeighbours := 0 } with
    netifFieldCount := 4 }

/-- A field whose value is read without counting neighbours. -/
theorem ifaceForest_step (env : Env) (i n : Nat) {x : UInt8} (hne : x ≠ 3) :
    ifaceForest env i (n + 1) { g with netifFieldCount := x }
      = .node ⟨{ g with netifFieldCount := x }, .netif (some i) .field⟩ .nil
          (ifaceForest env i n { g with netifFieldCount := x + 1 }) := by
  rw [ifaceForest, afterValue_of_ne hne]

/-- The fields of an interface that is entered at the first one. -/
theorem ifaceForest_first {env : Env} (hn : env.ifaces[i]? = some n) (g : Globals) :
    ifaceForest env i 4 { g with netifFieldCount := 0 }
      = .node ⟨{ g with netifFieldCount := 0 }, .netif (some i) .field⟩ .nil
          (.node ⟨{ g with netifFieldCount := 1 }, .netif (some i) .field⟩ .nil
            (.node ⟨{ g with netifFieldCount := 2 }, .netif (some i) .field⟩ .nil
              (.node ⟨{ g with netifFieldCount := 3 }, .netif (some i) .field⟩ .nil
                (.node ⟨counted env n g, .netif (some i) .field⟩
                  (neighbourForest i (counted env n g).numNeighbours.toNat (counted env n g))
                  .nil)))) := by
  have hcount : afterValue env { g with netifFieldCount := 3 } (.netif (some i) .field)
      = (env.nibNc n.id).foldl countNeighbour { g with netifFieldCount := 3, numNeighbours := 0 } := by
    simp only [afterValue, if_true, hn]
  refine (ifaceForest_step env i 3 (by decide)).trans (congrArg (Forest.node _ .nil) ?_)
  refine (ifaceForest_step env i 2 (by decide)).trans (congrArg (Forest.node _ .nil) ?_)
  refine (ifaceForest_step env i 1 (by decide)).trans (congrArg (Forest.node _ .nil) ?_)
  exact congrArg (fun g' : Globals =>
    Forest.node (⟨{ g with netifFieldCount := 3 }, .netif (some i) .field⟩ : Visit) .nil
      (ifaceForest env i 0 { g' with netifFieldCount := 4 })) hcount

/-- **The fields of an interface are printed with its own values.** -/
theorem prints_ifaceFields (hn : db.env.ifaces[i]? = some n)
    (hlen : (db.env.nibNc n.id).length ≤ 255) (g : Globals) {out : List Printed}
    (hout : Prints db stack (depth + 1) (neighbourForest i (counted db.env n g).numNeighbours.toNat
      (counted db.env n g)) out) :
    Prints db stack depth (ifaceForest db.env i 4 { g with netifFieldCount := 0 })
      (((n.fields db.env).map fun (name, type, text) => ⟨depth, .lit name, type, text⟩) ++ out) := by
  have hat : db.env.ifaceAt (some i) = some n := hn
  have hiface : db.env.iface (some i) = .ok n := iface_eq_ok.mpr hat
  have haddr : (n.addrText db.env).length < dcaShellStrbufSize :=
    Nat.lt_trans (n.addrText_fits db.env) (by decide)
  have hlink : n.linkText.length < dcaShellStrbufSize := by
    unfold Netif.linkText
    split_ifs <;> decide
  have hpid : netifNodeGetintValue db.env { g with netifFieldCount := 0 } (some i)
      = .ok ({ g with netifFieldCount := 0 }, n.id) := by
    simp only [netifNodeGetintValue, if_true, hiface, ok_bind, pure_eq_ok]
  have hnum : ∃ g', netifNodeGetintValue db.env { g with netifFieldCount := 3 } (some i)
      = .ok (g', ((db.env.nibNc n.id).length : Int)) := by
    simp [netifNodeGetintValue, hiface, numNeighbours_foldl]
    omega
  have hwfAddr : TextWellFormed db { g with netifFieldCount := 1 } (.netif (some i) .field)
      stack.str := by
    rw [netif_str (by decide) rfl]
    exact ⟨n, hat, haddr, fun _ => by decide⟩
  have hwfLink : TextWellFormed db { g with netifFieldCount := 2 } (.netif (some i) .field)
      stack.str := by
    rw [netif_str (by decide) rfl]
    exact ⟨n, hat, hlink⟩
  obtain ⟨g', hnum⟩ := hnum
  rw [ifaceForest_first hn]
  refine .cons (print_netifInt rfl rfl hpid) ?_
  refine .cons (print_netifStr rfl rfl (by simp [strText, hat]) hwfAddr haddr) ?_
  refine .cons (print_netifStr rfl rfl (by simp [strText, hat]) hwfLink hlink) ?_
  refine .cons (print_netifInt rfl rfl hnum) ?_
  exact Prints.node (print_neighbours i rfl) hout

theorem neighbours_foldl (ips : List Ipv6Addr) (g : Globals) :
    (ips.foldl countNeighbour g).neighbours = ips.foldl netifNodeAddList g.neighbours := by
  induction ips generalizing g with
  | nil => rfl
  | cons ip ips ih => exact ih (countNeighbour g ip)

theorem numNeighbours_counted {env : Env} (hlen : (env.nibNc n.id).length ≤ 255) (g : Globals) :
    (counted env n g).numNeighbours.toNat = (env.nibNc n.id).length := by
  simp only [counted, numNeighbours_foldl, UInt8.zero_add, UInt8.toNat_ofNat']
  omega

end Lines

/--
There is one interface, its name fits, and so do the addresses in front of the neighbour list when
those of its neighbour cache have been put there.
-/
def OneIface (env : Env) (g : Globals) : Prop :=
  ∃ n, env.ifaces = [n] ∧ n.name.length < dbNodeNameMax ∧
    AddressesFit env ((env.nibNc n.id).foldl netifNodeAddList g.neighbours) (env.nibNc n.id).length

section Traversal

variable {db : Db} {g : Globals}

/-- The way through a new node. -/
theorem tourTo_newNetif (db : Db) (junk : DbNode) (g : Globals) :
    TourTo db junk (dbNewNetifNode db.env g).1 (dbNewNetifNode db.env g).2
      (afterIfaces db.env db.env.ifaces.length 0 (dbNewNetifNode db.env g).1)
      (netifForest db.env db.env.ifaces.length 0 (dbNewNetifNode db.env g).1) :=
  tourTo_netifRoot (g := (dbNewNetifNode db.env g).1) (by decide : (0 : UInt8) < netifCount) rfl

/-- **With more than one interface there are not enough lines.** -/
theorem length_ifaces_of_shows (h : ShowsIfaces db g) : db.env.ifaces.length ≤ 1 := by
  obtain ⟨N, r, htree, hout⟩ := h ⟨.null, Buf.zero _, Buf.zero _⟩ 0
  have hprints : Prints db _ 0 _ r.2.2 :=
    (tourTo_newNetif db .null g).prints_of_eq_ok (htree N (Nat.le_refl N))
  have hlines := hprints.countP 3
  rw [List.countP_eq_length_filter, hout, List.length_cons, length_flatMap_printed,
    Forest.upper, Forest.upper_nil] at hlines
  cases hlen : db.env.ifaces.length with
  | zero => omega
  | succ n =>
    rw [hlen, upper_netifForest db.env n rfl] at hlines
    omega

/-- The visits of one interface. -/
theorem netifForest_one {env : Env} {n : Netif} (hone : env.ifaces = [n]) (g : Globals) :
    netifForest env env.ifaces.length 0 (dbNewNetifNode env g).1
      = .node ⟨(dbNewNetifNode env g).1, .netif (some 0) .iface⟩
          (ifaceForest env 0 4 (dbNewNetifNode env g).1) .nil := by
  rw [hone]
  rfl

theorem oneIface_of_shows (hne : db.env.ifaces ≠ [])
    (hlen : ∀ n ∈ db.env.ifaces, (db.env.nibNc n.id).length ≤ 255) (h : ShowsIfaces db g) :
    OneIface db.env g := by
  obtain ⟨n, hone⟩ : ∃ n, db.env.ifaces = [n] := by
    have hle := length_ifaces_of_shows h
    have hpos := List.length_pos_iff.mpr hne
    exact List.length_eq_one_iff.mp (by omega)
  have hn : db.env.ifaces[0]? = some n := by rw [hone]; rfl
  have hfirst : ifaceForest db.env 0 4 (dbNewNetifNode db.env g).1 = _ :=
    ifaceForest_first hn { g with netifSubFieldCount := 1 }
  have hprint : ∀ stack, ∀ x ∈ (netifForest db.env db.env.ifaces.length 0
      (dbNewNetifNode db.env g).1).preorder 1, ∃ p, x.2.print db stack x.1 = .ok p := by
    intro stack
    obtain ⟨N, r, htree, -⟩ := h stack 0
    have hprints : Prints db stack 0 _ r.2.2 :=
      (tourTo_newNetif db stack.node g).prints_of_eq_ok (htree N (Nat.le_refl N))
    have hall := hprints.print_eq_ok
    rw [Forest.preorder, List.forall_mem_cons, List.forall_mem_append] at hall
    exact hall.2.1
  rw [netifForest_one hone, hfirst] at hprint
  simp only [Forest.preorder, List.append_nil, List.nil_append, List.forall_mem_cons] at hprint
  have hname := nameFits_of_print fun stack => (hprint stack).1
  obtain ⟨i, n', hi, hn', hlt⟩ := (nameFits_netif _ _ _).mp hname
  obtain rfl := Option.some.inj hi
  obtain rfl := Option.some.inj (hn.symm.trans hn')
  have hnum := numNeighbours_counted (hlen n (by rw [hone]; exact List.mem_cons_self))
    { g with netifSubFieldCount := 1 }
  have hfit := addressesFit_of_print 3 _ rfl fun stack => (hprint stack).2.2.2.2.2.2
  rw [hnum] at hfit
  refine ⟨n, hone, hlt, ?_⟩
  rw [counted, neighbours_foldl] at hfit
  exact hfit

theorem print_iface {stack : Stack} {depth i : Nat} {n : Netif} (hn : db.env.ifaces[i]? = some n)
    (hname : n.name.length < dbNodeNameMax) (g : Globals) :
    Visit.print db stack depth ⟨g, .netif (some i) .iface⟩ = .ok ⟨depth, n.name, .inner, none⟩ := by
  rw [print_folder rfl, (names_iface hn hname g).print, ok_bind]
  rfl

theorem print_netifRoot {stack : Stack} {depth : Nat} (iface : Option Nat) :
    Visit.print db stack depth ⟨g, .netif iface .root⟩ = .ok ⟨depth, .lit "netif", .inner, none⟩ := by
  have hname : Names db g (.netif iface .root) (.lit "netif") :=
    names_strncpy _ (by decide) fun b => rfl
  rw [print_folder rfl, hname.print, ok_bind]
  rfl

/-- What the traversal of one interface prints. -/
theorem prints_oneIface (stack : Stack) (depth : Nat) {n : Netif} (hone : db.env.ifaces = [n])
    (hlen : (db.env.nibNc n.id).length ≤ 255) (hname : n.name.length < dbNodeNameMax)
    (hfit : AddressesFit db.env ((db.env.nibNc n.id).foldl netifNodeAddList g.neighbours)
      (db.env.nibNc n.id).length) :
    ∃ out, (∀ p ∈ out, depth + 3 ≤ p.depth) ∧
      Prints db stack depth
        (.node ⟨(dbNewNetifNode db.env g).1, (dbNewNetifNode db.env g).2⟩
          (netifForest db.env db.env.ifaces.length 0 (dbNewNetifNode db.env g).1) .nil)
        (⟨depth, .lit "netif", .inner, none⟩ :: (n.printed db.env (depth + 1) ++ out)) := by
  have hn : db.env.ifaces[0]? = some n := by rw [hone]; rfl
  have hnum := numNeighbours_counted hlen { g with netifSubFieldCount := 1 }
  have hlist : (counted db.env n { g with netifSubFieldCount := 1 }).neighbours = _ :=
    neighbours_foldl (db.env.nibNc n.id) _
  obtain ⟨hle, htexts⟩ := hfit.take
  have hneighbours : Prints db stack (depth + 3)
      (neighbourForest 0 (counted db.env n { g with netifSubFieldCount := 1 }).numNeighbours.toNat
        (counted db.env n { g with netifSubFieldCount := 1 })) _ :=
    prints_neighbours 0 _ rfl rfl (by rw [hnum, hlist]; exact hle) (by rw [hnum, hlist]; exact htexts)
  have hfields : Prints db stack (depth + 2) (ifaceForest db.env 0 4 (dbNewNetifNode db.env g).1) _ :=
    prints_ifaceFields hn hlen { g with netifSubFieldCount := 1 } hneighbours
  refine ⟨_, fun p => hneighbours.le_depth, .node (print_netifRoot _) ?_⟩
  rw [netifForest_one hone]
  exact .node (print_iface hn hname _) hfields

/--
**Every interface is shown with all its fields exactly when there is one interface**, and its name
and the addresses of its neighbours fit: the next interface begins where the first one has ended,
at the last field.
-/
theorem showsIfaces_iff (db : Db) (g : Globals) (hne : db.env.ifaces ≠ [])
    (hlen : ∀ n ∈ db.env.ifaces, (db.env.nibNc n.id).length ≤ 255) :
    ShowsIfaces db g ↔ OneIface db.env g := by
  refine ⟨oneIface_of_shows hne hlen, ?_⟩
  rintro ⟨n, hone, hname, hfit⟩ stack depth
  have hcache := hlen n (by rw [hone]; exact List.mem_cons_self)
  obtain ⟨out, hdeep, hprints⟩ := prints_oneIface stack depth hone hcache hname hfit
  have hends : Ends (fun _ => False) _ fun fuel => treeR db stack fuel depth
      (dbNewNetifNode db.env g).1 (dbNewNetifNode db.env g).2 :=
    (tourTo_newNetif db stack.node g).prints hprints
  obtain ⟨N, result, hresult, hout⟩ := hends.exists_fuel
  cases result with
  | error t => exact hout.elim
  | ok r =>
    refine ⟨N, r, hresult, ?_⟩
    have hnone : out.filter (fun p => p.depth < depth + 3) = [] := by
      rw [List.filter_eq_nil_iff]
      intro p hp
      have := hdeep p hp
      simpa using this
    have hupper : (n.printed db.env (depth + 1)).filter (fun p => p.depth < depth + 3)
        = n.printed db.env (depth + 1) := by
      rw [List.filter_eq_self]
      intro p hp
      simp only [Netif.printed, Netif.fields, List.map_cons, List.map_nil, List.mem_cons,
        List.not_mem_nil, or_false] at hp
      rcases hp with rfl | rfl | rfl | rfl | rfl | rfl <;> simp
    rw [hout.2, List.filter_cons_of_pos (by simp), List.filter_append, hnone, hupper, hone]
    rfl

end Traversal

theorem showsIfaces_small : ShowsIfaces smallDb {} :=
  (showsIfaces_iff smallDb {} (by decide) (by decide)).mpr
    ⟨_, rfl, by decide, by decide⟩

/-- The small board with a second interface. -/
def twoIfacesEnv : Env where
  __ := smallEnv
  ifaces := [⟨6, .lit "6", some (linkLocal 2), 0⟩, ⟨7, .lit "7", some (linkLocal 2), 1⟩]

/-- The second interface shows nothing but its neighbours. -/
theorem not_showsIfaces : ¬ ShowsIfaces (.ofEnv {} twoIfacesEnv) {} := by
  intro h
  have hlen := length_ifaces_of_shows h
  exact absurd hlen (by decide)

end Dca
