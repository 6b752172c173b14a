import Dca.Db.Dump
import Dca.Db.Labels
import Dca.Db.Position

/-!
# The neighbours that are shown

Reading `num_neighbours` puts the addresses of a neighbour cache into the neighbour list and counts
them, and the folder `neighbours` then shows as many entries from the head of the list. New entries
go to the head, but an address that was already in the list stays where it is. So the entries that
are shown are those of the cache where the cached ones among the old entries come first
(`CachedFirst`), and other ones where a measurement or another interface has put an address in
front of them.
-/

namespace Dca

open CLib

/-! ## The list -/

/-- The entries with an address of the cache are the first ones of the list. -/
def CachedFirst (cache : List Ipv6Addr) (l : List NeighborEntryl) : Prop :=
  ∀ e ∈ l.dropWhile (·.addr ∈ cache), e.addr ∉ cache

instance (cache : List Ipv6Addr) (l : List NeighborEntryl) : Decidable (CachedFirst cache l) := by
  unfold CachedFirst
  infer_instance

section List

variable {cache : List Ipv6Addr} {l : List NeighborEntryl}

theorem CachedFirst.addList (h : CachedFirst cache l) {ip : Ipv6Addr} (hip : ip ∈ cache) :
    CachedFirst cache (netifNodeAddList l ip) := by
  unfold netifNodeAddList
  split_ifs
  · exact h
  · rw [insertEntry, CachedFirst, List.dropWhile_cons_of_pos (by simpa using hip)]
    exact h

theorem CachedFirst.count {ips : List Ipv6Addr} (hips : ips ⊆ cache) {g : Globals}
    (h : CachedFirst cache g.neighbours) :
    CachedFirst cache (ips.foldl countNeighbour g).neighbours := by
  induction ips generalizing g with
  | nil => exact h
  | cons ip ips ih =>
    obtain ⟨hip, hips⟩ := List.cons_subset.mp hips
    exact ih hips (h.addList hip)

theorem mem_takeWhile_cached (h : CachedFirst cache l) (hsub : cache ⊆ l.map (·.addr))
    (a : Ipv6Addr) : a ∈ (l.takeWhile (·.addr ∈ cache)).map (·.addr) ↔ a ∈ cache := by
  constructor
  · intro ha
    obtain ⟨e, he, rfl⟩ := List.mem_map.mp ha
    simpa using List.mem_takeWhile_imp he
  · intro ha
    obtain ⟨e, he, rfl⟩ := List.mem_map.mp (hsub ha)
    rw [← List.takeWhile_append_dropWhile (p := (·.addr ∈ cache)) (l := l), List.mem_append] at he
    rcases he with he | he
    · exact List.mem_map_of_mem he
    · exact absurd ha (h e he)

/-- **As many entries as the cache has are those of the cache.** -/
theorem take_cached (h : CachedFirst cache l) (hsub : cache ⊆ l.map (·.addr))
    (hcache : cache.Nodup) (hnd : (l.map (·.addr)).Nodup) :
    l.take cache.length = l.takeWhile (·.addr ∈ cache) := by
  have hmem := mem_takeWhile_cached h hsub
  have hpre : l.takeWhile (·.addr ∈ cache) <+: l := List.takeWhile_prefix _
  have hnd' : ((l.takeWhile (·.addr ∈ cache)).map (·.addr)).Nodup :=
    hnd.sublist (hpre.sublist.map _)
  have hlen : cache.length = (l.takeWhile (·.addr ∈ cache)).length := by
    rw [← List.length_map NeighborEntryl.addr]
    exact ((List.perm_ext_iff_of_nodup hcache hnd').mpr fun a => (hmem a).symm).length_eq
  rw [hlen]
  exact (List.prefix_iff_eq_take.mp hpre).symm

end List

/-! ## What is printed -/

/-- The value that is shown for a stored latency. -/
def shownLatency (env : Env) (latency : UInt32) : CFloat :=
  some (env.round (truncRat (env.floatDiv (asInt32 latency) 2000)))

/-- The value that is shown for a stored packet loss or throughput. -/
def shownNumber (env : Env) (number : UInt32) : CFloat :=
  some (env.round (truncRat (env.round (asInt32 number))))

/-- The text of a measurement in the array of the dump. -/
def measurementText (env : Env) (value : CFloat) : CString :=
  numberText dcaShellStrbufSize (env.fmtFloat value floatPrescision)

/-- What a dump prints for a neighbour: its address, and below it what is stored for it. -/
def NeighborEntryl.printed (env : Env) (depth : Nat) (e : NeighborEntryl) : List Printed :=
  [⟨depth, env.ipv6AddrToStr e.addr, .inner, none⟩,
    ⟨depth + 1, .lit "latency", .float, some (measurementText env (shownLatency env e.latency))⟩,
    ⟨depth + 1, .lit "packet_loss", .float,
      some (measurementText env (shownNumber env e.packetLoss))⟩,
    ⟨depth + 1, .lit "throughput", .float,
      some (measurementText env (shownNumber env e.throughput))⟩]

/-- What a dump prints for a folder `neighbours`. -/
def printedNeighbours (env : Env) (depth : Nat) (shown : List NeighborEntryl) : List Printed :=
  ⟨depth, .lit "neighbours", .inner, none⟩ :: shown.flatMap (·.printed env (depth + 1))

section Prints

variable {db : Db} {stack : Stack} {depth : Nat} {g : Globals} (i : Nat)

theorem print_neighbours (hlast : g.netifFieldCount = 4) :
    Visit.print db stack depth ⟨g, .netif (some i) .field⟩
      = .ok ⟨depth, .lit "neighbours", .inner, none⟩ := by
  have hname : Names db g (.netif (some i) .field) (.lit "neighbours") :=
    names_netifField i (by rw [hlast]; rfl)
  rw [print_folder (type_neighbours i hlast), hname.print, ok_bind]
  rfl

theorem print_qos {field : String} (hf : netifSubFieldName g.netifSubFieldCount = some field)
    {value : CFloat} (hfloat : netifNodeGettype g .qos = .float)
    (hv : netifNodeGetfloatValue db.env g (some i) = .ok value) :
    Visit.print db stack depth ⟨g, .netif (some i) .qos⟩
      = .ok ⟨depth, .lit field, .float, some (measurementText db.env value)⟩ := by
  have htype : dbNodeGetType db g (.netif (some i) .qos) = .ok .float := congrArg Except.ok hfloat
  have hvalue : dbNodeGetFloatValue db g (.netif (some i) .qos) = .ok value := by
    rw [dbNodeGetFloatValue, htype]
    exact hv
  rw [print_leaf htype (by simp), (names_qos i hf).print, ok_bind,
    printContent_float htype hvalue, ok_bind]
  rfl

section Entry

variable {e : NeighborEntryl} (hlast : g.netifFieldCount = 4)
  (he : entryAt g.neighbours g.numNeighbours = some e)
include hlast he

theorem print_neighbour (hlt : (db.env.ipv6AddrToStr e.addr).length < dbNodeNameMax) :
    Visit.print db stack depth ⟨g, .netif (some i) .neighbour⟩
      = .ok ⟨depth, db.env.ipv6AddrToStr e.addr, .inner, none⟩ := by
  have htype : dbNodeGetType db g (.netif (some i) .neighbour) = .ok .inner := by
    simp [dbNodeGetType, netifNodeGettype, hlast]
  rw [print_folder htype, (names_neighbour i he hlt).print, ok_bind]
  rfl

/-- **A neighbour is printed with what is stored for it.** -/
theorem prints_neighbour (hlt : (db.env.ipv6AddrToStr e.addr).length < dbNodeNameMax) :
    Prints db stack depth
      (.node ⟨{ g with netifSubFieldCount := 2 }, .netif (some i) .neighbour⟩ (qosForest i g) .nil)
      (e.printed db.env depth) := by
  have hread : ∀ sub, readSubField g.neighbours sub g.numNeighbours = .ok (e.subField sub) :=
    readSubField_eq he
  have hlatency : netifNodeGetfloatValue db.env { g with netifSubFieldCount := 2 } (some i)
      = .ok (shownLatency db.env e.latency) := by
    simp [netifNodeGetfloatValue, netifGetLatency, hread]
    rfl
  have hloss : netifNodeGetfloatValue db.env { g with netifSubFieldCount := 3 } (some i)
      = .ok (shownNumber db.env e.packetLoss) := by
    simp [netifNodeGetfloatValue, netifGetPacketloss, hread]
    rfl
  have hthroughput : netifNodeGetfloatValue db.env { g with netifSubFieldCount := 4 } (some i)
      = .ok (shownNumber db.env e.throughput) := by
    simp [netifNodeGetfloatValue, netifGetThroughput, netifGetPacketloss, hread]
    rfl
  have hfloat : ∀ sub, sub = 2 ∨ sub = 3 ∨ sub = 4 →
      netifNodeGettype { g with netifSubFieldCount := sub } .qos = .float := by
    intro sub hsub
    simp [netifNodeGettype, hlast, hsub]
  refine .node (print_neighbour i (g := { g with netifSubFieldCount := 2 }) hlast he hlt) ?_
  refine .cons (print_qos i (g := { g with netifSubFieldCount := 2 }) rfl
    (hfloat 2 (by simp)) hlatency) ?_
  refine .cons (print_qos i (g := { g with netifSubFieldCount := 3 }) rfl
    (hfloat 3 (by simp)) hloss) ?_
  exact .cons (print_qos i (g := { g with netifSubFieldCount := 4 }) rfl
    (hfloat 4 (by simp)) hthroughput) .nil

end Entry

/-- **As many entries as there are neighbours are printed**, the first one last. -/
theorem prints_neighbours (n : Nat) {g : Globals} (hlast : g.netifFieldCount = 4)
    (hn : g.numNeighbours.toNat = n) (hle : n ≤ g.neighbours.length)
    (htexts : ∀ e ∈ g.neighbours.take n, (db.env.ipv6AddrToStr e.addr).length < dbNodeNameMax) :
    Prints db stack depth (neighbourForest i n g)
      ((g.neighbours.take n).reverse.flatMap (·.printed db.env depth)) := by
  induction n generalizing g with
  | zero => exact .nil
  | succ n ih =>
    have hlt : n < g.neighbours.length := hle
    have he : entryAt g.neighbours g.numNeighbours = some g.neighbours[n] := by
      rw [entryAt, hn, Nat.add_sub_cancel]
      exact List.getElem?_eq_getElem hlt
    have hsplit : g.neighbours.take (n + 1) = g.neighbours.take n ++ [g.neighbours[n]] :=
      List.take_succ_eq_append_getElem hlt
    rw [hsplit] at htexts ⊢
    have hself := htexts _ (List.mem_append_right _ (List.mem_singleton_self _))
    have hrest := ih (g := { g with numNeighbours := g.numNeighbours - 1 }) hlast
      (numNeighbours_pred hn).2 (Nat.le_of_succ_le hle)
      fun e hmem => htexts e (List.mem_append_left _ hmem)
    rw [List.reverse_append, List.reverse_singleton, List.singleton_append, List.flatMap_cons]
    exact (prints_neighbour i hlast he hself).siblings hrest

end Prints

/-! ## Histories -/

theorem nodup_foldl_countNeighbour (ips : List Ipv6Addr) {g : Globals}
    (h : (g.neighbours.map (·.addr)).Nodup) :
    ((ips.foldl countNeighbour g).neighbours.map (·.addr)).Nodup := by
  induction ips generalizing g with
  | nil => exact h
  | cons ip ips ih => exact ih (nodup_apply h (.discover ip))

/-- No address is in the list twice. -/
theorem keeps_nodup (index : List DbFlEntry) :
    System.Keeps index fun g => (g.neighbours.map (·.addr)).Nodup where
  calls := fun _ => {
    child := by
      intro c c' hstep h
      rw [neighbours_of_childStep hstep]
      exact h
    count := fun ips h => nodup_foldl_countNeighbour ips h }
  store := fun op h => nodup_apply h op

/-- `num_neighbours` of the interface at position `i` is read, as a number or as text. -/
def ReadsNumNeighbours (db : Db) (i : Nat) (g g' : Globals) : Prop :=
  g.netifFieldCount = 3 ∧
    ((∃ v, dbNodeGetIntValue db g (.netif (some i) .field) = .ok (g', v)) ∨
      ∃ (n : Nat) (b b' : Buf n) (r : Int),
        dbNodeValueToStr db g (.netif (some i) .field) b = .ok (g', b', r))

/--
`num_neighbours` of the interface at position `i` is read in the state `g₀`, and in the state `g`
its folder `neighbours` comes next. The neighbours have not changed in between.
-/
structure ReadAndOpened (db : Db) (i : Nat) (g₀ g : Globals) : Prop where
  read : ∃ g₁, ReadsNumNeighbours db i g₀ g₁ ∧ g.numNeighbours = g₁.numNeighbours ∧
    g.neighbours = g₁.neighbours
  folder : g.netifFieldCount = 4

/--
The traversal of the folder `neighbours` shows the addresses of the cache, each once, and under
each address what the list has for it.
-/
def ShowsCache (db : Db) (i : Nat) (cache : List Ipv6Addr) (g : Globals) : Prop :=
  ∀ (stack : Stack) (depth : Nat), ∃ N r,
    (∀ fuel ≥ N, treeR db stack fuel depth g (.netif (some i) .field) = .ok r) ∧
      ∃ shown : List NeighborEntryl, r.2.2 = printedNeighbours db.env depth shown ∧
        (shown.map (·.addr)).Nodup ∧ (∀ a, a ∈ shown.map (·.addr) ↔ a ∈ cache) ∧
          ∀ e ∈ shown, lookupKey NeighborEntryl.addr e.addr g.neighbours = some e

/--
Before the read, the cached entries are the first ones of the list. The measurements are where
`db_new_netif_node` has left them, and the texts of the addresses fit into a name.
-/
structure Showable (env : Env) (cache : List Ipv6Addr) (g₀ g : Globals) : Prop where
  first : CachedFirst cache g₀.neighbours
  start : cache ≠ [] → g.netifSubFieldCount = 1
  texts : ∀ a ∈ cache, (env.ipv6AddrToStr a).length < dbNodeNameMax

section Histories

variable {db : Db} {i : Nat} {g g' : Globals}

theorem ReadsNumNeighbours.eq {n : Netif} (h : ReadsNumNeighbours db i g g')
    (hn : db.env.ifaces[i]? = some n) :
    g' = (db.env.nibNc n.id).foldl countNeighbour { g with numNeighbours := 0 } := by
  obtain ⟨hthree, hread⟩ := h
  have hvalue : afterValue db.env g (.netif (some i) .field)
      = (db.env.nibNc n.id).foldl countNeighbour { g with numNeighbours := 0 } := by
    simp only [afterValue, if_pos hthree, hn]
  rw [← hvalue]
  rcases hread with ⟨v, hv⟩ | ⟨_, b, b', r, hv⟩
  · exact intValue_afterValue hv
  · have htype : dbNodeGetType db g (.netif (some i) .field) = .ok .int := by
      simp [dbNodeGetType, netifNodeGettype, hthree]
    exact valueToStr_afterValue htype (by simp) hv

/-- The call for the next field opens the folder. -/
theorem ReadsNumNeighbours.opens {n : Netif} (h : ReadsNumNeighbours db i g g')
    (hn : db.env.ifaces[i]? = some n) (iface : Option Nat) :
    ∃ c, dbNodeGetNextChild db ⟨g', .netif iface .field, .netif (some i) .field⟩ = .ok c ∧
      c.child = .netif (some i) .field ∧ ReadAndOpened db i g c.g ∧
        c.g.netifSubFieldCount = g.netifSubFieldCount := by
  obtain ⟨hcount, hsub, -, -⟩ := foldl_countNeighbour_frame (db.env.nibNc n.id)
    { g with numNeighbours := 0 }
  rw [← h.eq hn] at hcount hsub
  have hthree : g'.netifFieldCount = 3 := hcount.trans h.1
  refine ⟨_, next_netifField _ (by rw [hthree]; decide), rfl, ⟨⟨g', h, rfl, rfl⟩, ?_⟩, hsub⟩
  show g'.netifFieldCount + 1 = 4
  rw [hthree]
  rfl

/-- What is shown of a cache that has just been counted. -/
theorem showsCache_of_count {cache : List Ipv6Addr} (hnd : cache.Nodup) (hlen : cache.length ≤ 255)
    {g₀ : Globals} (hnd₀ : (g₀.neighbours.map (·.addr)).Nodup) (hfour : g.netifFieldCount = 4)
    (hnum : g.numNeighbours
      = (cache.foldl countNeighbour { g₀ with numNeighbours := 0 }).numNeighbours)
    (hlist : g.neighbours = (cache.foldl countNeighbour { g₀ with numNeighbours := 0 }).neighbours)
    (hshow : Showable db.env cache g₀ g) : ShowsCache db i cache g := by
  have hnodup : (g.neighbours.map (·.addr)).Nodup := by
    rw [hlist]
    exact nodup_foldl_countNeighbour cache hnd₀
  have hcount : g.numNeighbours.toNat = cache.length := by
    rw [hnum, numNeighbours_foldl]
    simp only [UInt8.zero_add, UInt8.toNat_ofNat']
    exact Nat.mod_eq_of_lt (by omega)
  have hsub : cache ⊆ g.neighbours.map (·.addr) := by
    rw [hlist]
    exact (subset_foldl_countNeighbour cache _).1
  have hfirst : CachedFirst cache g.neighbours := by
    rw [hlist]
    exact CachedFirst.count (List.Subset.refl _) (g := { g₀ with numNeighbours := 0 }) hshow.first
  have hmem := mem_takeWhile_cached hfirst hsub
  rw [← take_cached hfirst hsub hnd hnodup] at hmem
  have hle : cache.length ≤ g.neighbours.length := by
    have := (hnd.subperm hsub).length_le
    rwa [List.length_map] at this
  intro stack depth
  have hstart : g.numNeighbours ≠ 0 → g.netifSubFieldCount = 1 := by
    intro hpos
    refine hshow.start fun hnil => hpos (UInt8.toNat_inj.mp ?_)
    rw [hcount, hnil]
    rfl
  have htour : TourTo db stack.node g (.netif (some i) .field) _ _ :=
    tourTo_neighbours i hfour hstart
  have htexts : ∀ e ∈ g.neighbours.take cache.length,
      (db.env.ipv6AddrToStr e.addr).length < dbNodeNameMax :=
    fun e he => hshow.texts _ ((hmem _).mp (List.mem_map_of_mem he))
  have hprints : Prints db stack depth
      (.node ⟨g, .netif (some i) .field⟩ (neighbourForest i g.numNeighbours.toNat g) .nil)
      (printedNeighbours db.env depth (g.neighbours.take cache.length).reverse) := by
    rw [hcount]
    exact .node (print_neighbours i hfour) (prints_neighbours i cache.length hfour hcount hle htexts)
  obtain ⟨N, r, hr, hout⟩ := (htour.prints hprints).exists_fuel
  cases r with
  | error e => exact hout.elim
  | ok r =>
    refine ⟨N, r, hr, _, hout.2, ?_, fun a => ?_, fun e he => ?_⟩
    · rw [List.map_reverse, List.nodup_reverse]
      exact hnodup.sublist ((List.take_sublist _ _).map _)
    · rw [List.map_reverse, List.mem_reverse]
      exact hmem a
    · exact lookupKey_of_mem NeighborEntryl.addr hnodup
        (List.mem_of_mem_take (List.mem_reverse.mp he))

/--
**The neighbours that are shown are those of the interface**, after every history after which the
cached entries are the first ones of the list.
-/
theorem neighbours_shown (index : List DbFlEntry) {env : Env} {calls : List Call} {s : System}
    (hrun : run (System.step index) (.boot env) calls = some s) {i : Nat} {n : Netif}
    (hn : s.env.ifaces[i]? = some n) (hnd : (s.env.nibNc n.id).Nodup)
    (hlen : (s.env.nibNc n.id).length ≤ 255) {g : Globals}
    (hopen : ReadAndOpened (s.db index) i s.g g)
    (hshow : Showable s.env (s.env.nibNc n.id) s.g g) :
    ShowsCache (s.db index) i (s.env.nibNc n.id) g := by
  obtain ⟨⟨g₁, hread, hnum, hlist⟩, hfour⟩ := hopen
  obtain rfl := hread.eq hn
  exact showsCache_of_count hnd hlen ((keeps_nodup index).run hrun List.nodup_nil) hfour hnum hlist
    hshow

end Histories

/-! ## An address that is not in the cache -/

/-- Two addresses are measured, and then `num_neighbours` of the first interface comes next. -/
def measured (a b : Ipv6Addr) : List Call :=
  [.store (.latency a 0 0), .store (.latency b 0 0), .getRoot 0] ++ takeChildren 3 ++ enterChild 2 ++
    enterChild 1 ++ enterChild 4

/-- The folder of the interface behind the read, where the identifier of the interface is 6. -/
def countedGlobals (s : System) : Globals :=
  { (s.env.nibNc 6).foldl countNeighbour { s.g with numNeighbours := 0 } with netifFieldCount := 4 }

theorem readAndOpened_counted {s : System} {n : Netif} (hiface : s.env.ifaces[0]? = some n)
    (hid : n.id = 6) (hthree : s.g.netifFieldCount = 3) (index : List DbFlEntry) :
    ReadAndOpened (s.db index) 0 s.g (countedGlobals s) := by
  let g₁ := (s.env.nibNc 6).foldl countNeighbour { s.g with numNeighbours := 0 }
  refine ⟨⟨g₁, ⟨hthree, Or.inl ⟨g₁.numNeighbours.toNat, ?_⟩⟩, rfl, rfl⟩, rfl⟩
  simp [dbNodeGetIntValue, dbNodeGetType, netifNodeGettype, hthree, netifNodeGetintValue,
    System.db, Env.iface, hiface, hid, g₁]

/-- The address that was measured last is shown, and the other one is in the cache. -/
theorem neighbours_not_shown :
    ∃ s, run (System.step smallDb.dbIndex) (.boot smallEnv) (measured (linkLocal 1) (linkLocal 2))
        = some s ∧
      s.env.ifaces[0]? = some ⟨6, .lit "6", some (linkLocal 2), 0⟩ ∧
      s.env.nibNc 6 = [linkLocal 1] ∧ (countedGlobals s).netifSubFieldCount = 1 ∧
      ReadAndOpened (s.db smallDb.dbIndex) 0 s.g (countedGlobals s) ∧
      ¬ ShowsCache (s.db smallDb.dbIndex) 0 (s.env.nibNc 6) (countedGlobals s) := by
  have hrun : ∃ s, run (System.step smallDb.dbIndex) (.boot smallEnv)
      (measured (linkLocal 1) (linkLocal 2)) = some s ∧ _ :=
    exists_run_of_any (P := fun s : System =>
      s.env.ifaces[0]? = some ⟨6, .lit "6", some (linkLocal 2), 0⟩ ∧
        s.env.nibNc 6 = [linkLocal 1] ∧ (countedGlobals s).netifSubFieldCount = 1 ∧
        s.g.netifFieldCount = 3 ∧ s.env.ipv6AddrToStr (linkLocal 1) = .lit "fe80::1" ∧
        (treeR (s.db smallDb.dbIndex) ⟨.null, Buf.zero _, Buf.zero _⟩ 8 0 (countedGlobals s)
          (.netif (some 0) .field)).toOption.map (·.2.2.map Printed.name)
            = some [.lit "neighbours", .lit "fe80::2", .lit "latency", .lit "packet_loss",
                .lit "throughput"]) (by decide +kernel)
  obtain ⟨s, hs, hiface, hcache, hsub, hthree, htext, hout⟩ := hrun
  refine ⟨s, hs, hiface, hcache, hsub, readAndOpened_counted hiface rfl hthree _, fun hshows => ?_⟩
  obtain ⟨N, r, hr, shown, hprinted, -, hmem, -⟩ := hshows ⟨.null, Buf.zero _, Buf.zero _⟩ 0
  obtain ⟨r', hr', hnames⟩ := Option.map_eq_some_iff.mp hout
  have htree : treeR (s.db smallDb.dbIndex) ⟨.null, Buf.zero _, Buf.zero _⟩ (N + 8) 0
      (countedGlobals s) (.netif (some 0) .field) = .ok r' :=
    treeR_of_le (Nat.le_add_left 8 N) (toOption_eq_some.mp hr')
  obtain rfl := Except.ok.inj ((hr (N + 8) (Nat.le_add_right N 8)).symm.trans htree)
  rw [hprinted] at hnames
  cases shown with
  | nil => simp [printedNeighbours] at hnames
  | cons e shown =>
    have haddr : e.addr = linkLocal 1 := by
      have := (hmem e.addr).mp (by simp)
      rwa [hcache, List.mem_singleton] at this
    have hname : (s.db smallDb.dbIndex).env.ipv6AddrToStr e.addr = .lit "fe80::1" := by
      rw [haddr]
      exact htext
    simp only [printedNeighbours, List.flatMap_cons, NeighborEntryl.printed, List.cons_append,
      List.map_cons, List.cons.injEq, hname] at hnames
    exact absurd hnames.2.1 (by decide)

/-- Measured the other way round, the address in the cache is shown. -/
theorem neighbours_shown_measured :
    ∃ s, run (System.step smallDb.dbIndex) (.boot smallEnv) (measured (linkLocal 2) (linkLocal 1))
        = some s ∧
      s.env.nibNc 6 = [linkLocal 1] ∧ s.g.neighbours.length = 2 ∧
      ShowsCache (s.db smallDb.dbIndex) 0 (s.env.nibNc 6) (countedGlobals s) := by
  have hrun : ∃ s, run (System.step smallDb.dbIndex) (.boot smallEnv)
      (measured (linkLocal 2) (linkLocal 1)) = some s ∧ _ :=
    exists_run_of_any (P := fun s : System =>
      s.env.ifaces[0]? = some ⟨6, .lit "6", some (linkLocal 2), 0⟩ ∧
        s.env.nibNc 6 = [linkLocal 1] ∧ (countedGlobals s).netifSubFieldCount = 1 ∧
        s.g.netifFieldCount = 3 ∧ s.g.neighbours.length = 2 ∧
        CachedFirst (s.env.nibNc 6) s.g.neighbours ∧
        (s.env.ipv6AddrToStr (linkLocal 1)).length < dbNodeNameMax) (by decide +kernel)
  obtain ⟨s, hs, hiface, hcache, hsub, hthree, hlen, hfirst, htext⟩ := hrun
  have htexts : ∀ a ∈ s.env.nibNc 6, (s.env.ipv6AddrToStr a).length < dbNodeNameMax := by
    intro a ha
    rw [hcache, List.mem_singleton] at ha
    rw [ha]
    exact htext
  refine ⟨s, hs, hcache, hlen, ?_⟩
  exact neighbours_shown smallDb.dbIndex hs hiface (by simp [hcache]) (by simp [hcache])
    (readAndOpened_counted hiface rfl hthree _) ⟨hfirst, fun _ => hsub, htexts⟩

end Dca
