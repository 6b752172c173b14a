import Dca.Neighbour.Threads

/-!
# Readers of the neighbour list among threads

The database finds a neighbour by its number: `linked_list_read_ip` and `linked_list_read` follow
the links from `head`, while other threads put entries in front and write results. A read finds the
entry that has the number when `ptr = head` is executed, whatever happens afterwards. So what two
reads with one number find belongs together exactly if no address was added between them. `head` is
read a second time to find out whether there is an entry at all, and this can go wrong.
-/

namespace Dca

open CLib

/-! ## The reads in turns -/

/-- Where a reader is. Both functions take the same way and read one field of the entry at its end. -/
inductive ReadPc where
  /-- Before `ptr = head`. -/
  | start
  /-- Before `if (head == NULL)`. -/
  | test (ptr : Option Nat)
  /-- Before the test of the loop, with `k` turns to go. -/
  | walk (ptr : Option Nat) (k : Nat)
  /-- With the entry, if there is one. -/
  | done (entry : Option NeighborEntryl)
  deriving DecidableEq

namespace ReadPc

/-- A turn: one access of `head` or of an entry. -/
def turn (num : UInt8) (m : Mem) : ReadPc → Res ReadPc
  | .start => return .test m.head
  | .test ptr => return if m.head = none then .done none else .walk ptr (num.toNat - 1)
  | .walk none 0 => return .done none
  | .walk none (_ + 1) => .error .null
  | .walk (some p) 0 => return .done (some (← m.deref p).toNeighborEntryl)
  | .walk (some p) (k + 1) => return .walk (← m.deref p).next k
  | .done entry => return .done entry

/-- The rest of a read that nothing disturbs. -/
def rest (num : UInt8) (m : Mem) : Nat → ReadPc → Res (Option NeighborEntryl)
  | _, .done entry => return entry
  | 0, _ => .error .fuel
  | n + 1, pc => do rest num m n (← pc.turn num m)

/-- How many turns are left at most. -/
def rank (num : UInt8) : ReadPc → Nat
  | .start => num.toNat - 1 + 3
  | .test _ => num.toNat - 1 + 2
  | .walk _ k => k + 1
  | .done _ => 0

variable {num : UInt8} {m : Mem}

theorem rest_walk (ptr : Option Nat) (k : Nat) :
    rest num m (k + 1) (.walk ptr k) = (do
      match ← m.stepPtr k ptr with
      | some p => return some (← m.deref p).toNeighborEntryl
      | none => return none) := by
  induction k generalizing ptr with
  | zero =>
    cases ptr with
    | none => rfl
    | some p =>
      simp only [rest, turn, Mem.stepPtr, ok_bind]
      cases m.deref p <;> rfl
  | succ k ih =>
    cases ptr with
    | none => rfl
    | some p =>
      rw [rest, turn, Mem.stepPtr]
      · cases hderef : m.deref p with
        | error t => rfl
        | ok c => exact ih c.next
      · exact fun _ => by simp

/-- **Turn by turn a read that nothing disturbs does what the function does.** -/
theorem rest_start (num : UInt8) (m : Mem) :
    rest num m (num.toNat - 1 + 3) .start = (do
      if m.head = none then return none
      match ← m.stepPtr (num.toNat - 1) m.head with
      | some p => return some (← m.deref p).toNeighborEntryl
      | none => return none) := by
  have hstart : rest num m (num.toNat - 1 + 3) .start
      = rest num m (num.toNat - 1 + 2) (.test m.head) := rfl
  have htest : rest num m (num.toNat - 1 + 2) (.test m.head)
      = rest num m (num.toNat - 1 + 1)
          (if m.head = none then .done none else .walk m.head (num.toNat - 1)) := rfl
  rw [hstart, htest]
  split_ifs
  · rfl
  · exact rest_walk m.head (num.toNat - 1)

end ReadPc

theorem linkedListReadIp_turns {n : Nat} (m : Mem) (env : Env) (num : UInt8) (addrStr : Buf n) :
    m.linkedListReadIp env num addrStr = (do
      match ← ReadPc.rest num m (num.toNat - 1 + 3) .start with
      | some e => return (← inBounds (addrStr.strcpy (env.ipv6AddrToStr e.addr)), 0)
      | none => return (addrStr, 1)) := by
  rw [ReadPc.rest_start, Mem.linkedListReadIp]
  split_ifs
  · rfl
  · cases m.stepPtr (num.toNat - 1) m.head with
    | error t => rfl
    | ok ptr =>
      cases ptr with
      | none => rfl
      | some p =>
        simp only [ok_bind]
        cases m.deref p <;> rfl

theorem linkedListRead_turns (m : Mem) (sub num : UInt8) :
    m.linkedListRead sub num
      = (fun entry => entry.elim 1 (·.subField sub))
          <$> ReadPc.rest num m (num.toNat - 1 + 3) .start := by
  rw [ReadPc.rest_start, Mem.linkedListRead]
  split_ifs
  · rfl
  · cases m.stepPtr (num.toNat - 1) m.head with
    | error t => rfl
    | ok ptr =>
      cases ptr with
      | none => rfl
      | some p =>
        simp only [ok_bind]
        cases m.deref p <;> rfl

/-- The threads that use the list, and a reader. -/
structure Reading (ι : Type) where
  stats : SharedStats ι
  pc : ReadPc

/-- A thread goes on, the next read is called, or the reader takes a turn. -/
inductive ReadEvent (ι : Type) where
  | store (e : StoreEvent ι)
  | call
  | turn

/-- Whether the reader takes a turn. -/
def ReadEvent.isTurn {ι : Type} : ReadEvent ι → Bool
  | turn => true
  | store _ | call => false

namespace Reading

variable {ι : Type}

/-- No thread is in an operation, and the first read begins. -/
def boot (ι : Type) (m : Mem) : Reading ι := ⟨.boot ι m, .start⟩

variable [DecidableEq ι]

/-- One step, if it is possible. All reads have the number `num`. -/
def step (num : UInt8) (s : Reading ι) : ReadEvent ι → Option (Reading ι)
  | .store e => (s.stats.step e).map fun stats => { s with stats }
  | .call =>
    match s.pc with
    | .done _ => some { s with pc := .start }
    | _ => none
  | .turn => (s.pc.turn num s.stats.mem).toOption.map fun pc => { s with pc }

/-- The steps of the other threads keep to what `SharedStats.Unraced` says. -/
def Unraced (s : Reading ι) : ReadEvent ι → Prop
  | .store e => s.stats.Unraced e
  | .call | .turn => True

instance Unraced.decidable (s : Reading ι) : ∀ e, Decidable (s.Unraced e)
  | .store e => inferInstanceAs (Decidable (s.stats.Unraced e))
  | .call | .turn => .isTrue trivial

end Reading

/-! ## Entries behind a pointer -/

namespace SharedStats

variable {ι : Type}

/-- From the pointer on there are entries with these keys, none of which a thread has for itself. -/
def Reaches (s : SharedStats ι) (p : Option Nat) (keys : List (Nat × Ipv6Addr)) : Prop :=
  ∃ cells, Links NeighborCell.next s.mem.heap p cells ∧ cellKeys cells = keys ∧
    ∀ t op node, (s.pc t).own? = some (op, node) → node ∉ cells.map Prod.fst

variable {s s' : SharedStats ι} {p : Option Nat} {keys keys' : List (Nat × Ipv6Addr)}

theorem Reaches.unique (h : s.Reaches p keys) (h' : s.Reaches p keys') : keys = keys' := by
  obtain ⟨cells, hlinks, rfl, -⟩ := h
  obtain ⟨cells', hlinks', rfl, -⟩ := h'
  rw [hlinks.unique hlinks']

theorem Reaches.at_end (h : s.Reaches none keys) : keys = [] := by
  obtain ⟨cells, hlinks, rfl, -⟩ := h
  cases hlinks
  rfl

theorem Reaches.at_entry {q : Nat} (h : s.Reaches (some q) keys) :
    ∃ c behind, s.mem.heap.load q = some c ∧ keys = (q, c.addr) :: behind ∧
      s.Reaches c.next behind := by
  obtain ⟨cells, hlinks, rfl, hnot⟩ := h
  cases hlinks with
  | @cons _ c rest hq hrest =>
    refine ⟨c, cellKeys rest, hq, rfl, rest, hrest, rfl, fun t op node hown hmem => ?_⟩
    exact hnot t op node hown (List.mem_cons_of_mem _ hmem)

theorem Linked.reaches (h : s.Linked) (hp : s.Leads p) : ∃ keys, s.Reaches p keys := by
  obtain ⟨cells, hlinks, hnot⟩ := h.leads p hp
  exact ⟨_, cells, hlinks, rfl, hnot⟩

/-- What is behind `head` are the entries of the list. -/
theorem Reaches.list {l : List NeighborEntryl} (h : s.Reaches s.mem.head keys)
    (hl : s.mem.Holds l) : l.map NeighborEntryl.addr = keys.map Prod.snd := by
  obtain ⟨cells, hlinks, rfl, -⟩ := h
  obtain ⟨cells', hcells⟩ := hl
  obtain rfl := hlinks.unique hcells.links
  rw [← hcells.entries]
  simp [cellKeys, Function.comp_def]

/-- An entry behind `head` is one of the list. -/
theorem Reaches.entry {l : List NeighborEntryl} (h : s.Reaches s.mem.head keys)
    (hl : s.mem.Holds l) {q : Nat} {a : Ipv6Addr} (hq : (q, a) ∈ keys) {c : NeighborCell}
    (hload : s.mem.heap.load q = some c) : c.toNeighborEntryl ∈ l := by
  obtain ⟨cells, hlinks, rfl, -⟩ := h
  obtain ⟨cells', hcells⟩ := hl
  obtain rfl := hlinks.unique hcells.links
  obtain ⟨⟨q', c'⟩, hmem, hkey⟩ := List.mem_map.mp hq
  obtain ⟨rfl, -⟩ := Prod.mk.inj hkey
  obtain rfl := Option.some.inj (hload.symm.trans (hlinks.load_of_mem hmem))
  rw [← hcells.entries]
  exact List.mem_map_of_mem hmem

/-- `head` changes when an entry is put in front. -/
theorem Moves.head {t : ι} {r : Mem × StorePc × List StatOp} (h : s.Moves t r) :
    r.1.head = s.mem.head ∨
      ∃ op node, s.pc t = .publish op node ∧ r.1 = { s.mem with head := some node } := by
  cases h with
  | publish hpc => exact Or.inr ⟨_, _, hpc, rfl⟩
  | _ => exact Or.inl rfl

variable [DecidableEq ι] {e : StoreEvent ι}

/-- **No step changes what is behind a pointer.** -/
theorem Reaches.step (h : s.Reaches p keys) (hlinked : s.Linked) (hstep : s.step e = some s') :
    s'.Reaches p keys := by
  obtain ⟨r, hmove, rfl⟩ := hlinked.moves hstep
  obtain ⟨cells, hlinks, rfl, hnot⟩ := h
  obtain ⟨cells', hlinks', hnot'⟩ : (s.after e.thread r).LeadsTo s.mem.heap p :=
    LeadsTo.after ⟨cells, hlinks, hnot⟩ hmove
  obtain rfl := hlinks.unique hlinks'
  obtain ⟨cells', hcells', hkeys⟩ := hmove.keeps hlinks hnot'
  refine ⟨cells', hcells', hkeys, ?_⟩
  rwa [← map_fst_cellKeys, hkeys, map_fst_cellKeys]

/-- **The list grows in front.** -/
theorem Reaches.grows (h : s.Reaches s.mem.head keys) (hlinked : s.Linked) (hrace : s.Unraced e)
    (hstep : s.step e = some s') : ∃ new, s'.Reaches s'.mem.head (new ++ keys) := by
  have hold := h.step hlinked hstep
  have hlinked' := linked_step hlinked hstep
  have hpublish : ∀ op node, s.pc e.thread = .publish op node →
      (s.mem.heap.load node).map NeighborCell.next = some s.mem.head := by
    intro op node hpc
    have hrace' := hrace.pc hstep
    rw [hpc] at hrace'
    exact hrace'.1
  obtain ⟨r, hmove, rfl⟩ := hlinked.moves hstep
  rcases hmove.head with hsame | ⟨op, node, hpc, hmem⟩
  · have hsame' : (s.after e.thread r).mem.head = s.mem.head := hsame
    exact ⟨[], by rwa [hsame']⟩
  · have hmem' : (s.after e.thread r).mem = { s.mem with head := some node } := hmem
    obtain ⟨keys', hkeys'⟩ := hlinked'.reaches .head
    rw [hmem'] at hkeys' ⊢
    obtain ⟨c, behind, hload, rfl, hbehind⟩ := hkeys'.at_entry
    -- the link of the entry was written when `head` was the same
    have hnext := hpublish op node hpc
    rw [hmem'] at hload
    rw [hload] at hnext
    obtain hnext : c.next = s.mem.head := Option.some.inj hnext
    rw [hnext] at hbehind
    obtain rfl := hold.unique hbehind
    exact ⟨[(node, c.addr)], hkeys'⟩

end SharedStats

/-! ## One read -/

section Read

variable {ι : Type} {num : UInt8} {keys : List (Nat × Ipv6Addr)}

/-- A reader on its way to the entry with its number, from a `head` that led to these keys. -/
def ReadPc.Finds (s : SharedStats ι) (num : UInt8) (keys : List (Nat × Ipv6Addr)) : ReadPc → Prop
  | .start => False
  | .test ptr => s.Reaches ptr keys ∧ (s.mem.head = none → keys = [])
  | .walk ptr k =>
    ∃ front behind, keys = front ++ behind ∧ front.length + k = num.toNat - 1 ∧
      s.Reaches ptr behind
  | .done entry => entry.map NeighborEntryl.addr = keys[num.toNat - 1]?.map Prod.snd

/-- What others do to the list does not concern a reader. -/
theorem ReadPc.Finds.store [DecidableEq ι] {s s' : SharedStats ι} {e : StoreEvent ι} {pc : ReadPc}
    (h : pc.Finds s num keys) (hlinked : s.Linked) (hstep : s.step e = some s') :
    pc.Finds s' num keys := by
  cases pc with
  | start => exact h
  | test ptr =>
    obtain ⟨hptr, hhead⟩ := h
    refine ⟨hptr.step hlinked hstep, fun hnone => hhead ?_⟩
    obtain ⟨r, hmove, rfl⟩ := hlinked.moves hstep
    have hnone' : r.1.head = none := hnone
    rcases hmove.head with hsame | ⟨op, node, -, hmem⟩
    · rw [← hsame, hnone']
    · rw [hmem] at hnone'
      cases hnone'
  | walk ptr k =>
    obtain ⟨front, behind, hkeys, hk, hptr⟩ := h
    exact ⟨front, behind, hkeys, hk, hptr.step hlinked hstep⟩
  | done entry => exact h

/-- **A turn goes one entry further.** -/
theorem ReadPc.Finds.turn {s : SharedStats ι} {pc pc' : ReadPc} (h : pc.Finds s num keys)
    (hturn : pc.turn num s.mem = .ok pc') : pc'.Finds s num keys := by
  cases pc with
  | start => cases h
  | test ptr =>
    obtain ⟨hptr, hhead⟩ := h
    obtain rfl := Except.ok.inj hturn
    split_ifs with hnone
    · rw [hhead hnone]
      rfl
    · exact ⟨[], keys, rfl, by simp, hptr⟩
  | walk ptr k =>
    obtain ⟨front, behind, rfl, hk, hptr⟩ := h
    cases ptr with
    | none =>
      obtain rfl := hptr.at_end
      cases k with
      | zero =>
        obtain rfl := Except.ok.inj hturn
        show none = _
        rw [List.getElem?_eq_none (by simp; omega)]
        rfl
      | succ k => cases hturn
    | some p =>
      obtain ⟨c, rest, hload, rfl, hrest⟩ := hptr.at_entry
      cases k with
      | zero =>
        rw [ReadPc.turn, deref_eq hload] at hturn
        obtain rfl := Except.ok.inj hturn
        show some c.addr = _
        rw [← hk, Nat.add_zero, List.getElem?_append_right (Nat.le_refl _), Nat.sub_self]
        rfl
      | succ k =>
        rw [ReadPc.turn, deref_eq hload] at hturn
        obtain rfl := Except.ok.inj hturn
        refine ⟨front ++ [(p, c.addr)], rest, by simp, ?_, hrest⟩
        rw [List.length_append, List.length_singleton]
        omega
  | done entry =>
    obtain rfl := Except.ok.inj hturn
    exact h

/-- **The next turn goes through**, unless the number is behind the end of the list. -/
theorem ReadPc.Finds.next {s : SharedStats ι} {pc : ReadPc} (h : pc.Finds s num keys)
    (hnum : num.toNat ≤ keys.length + 1) : ∃ pc', pc.turn num s.mem = .ok pc' := by
  cases pc with
  | start | test _ | done _ => exact ⟨_, rfl⟩
  | walk ptr k =>
    obtain ⟨front, behind, rfl, hk, hptr⟩ := h
    cases ptr with
    | none =>
      obtain rfl := hptr.at_end
      cases k with
      | zero => exact ⟨_, rfl⟩
      | succ k =>
        rw [List.append_nil] at hnum
        omega
    | some p =>
      obtain ⟨c, rest, hload, -, -⟩ := hptr.at_entry
      cases k with
      | zero => exact ⟨_, by rw [ReadPc.turn, deref_eq hload]; rfl⟩
      | succ k => exact ⟨_, by rw [ReadPc.turn, deref_eq hload]; rfl⟩

/-- The last turn reads the entry as it is then. -/
theorem ReadPc.Finds.last {s : SharedStats ι} {pc : ReadPc} {entry : NeighborEntryl}
    {new : List (Nat × Ipv6Addr)} {l : List NeighborEntryl} (h : pc.Finds s num keys)
    (hhead : s.Reaches s.mem.head (new ++ keys)) (hl : s.mem.Holds l)
    (hturn : pc.turn num s.mem = .ok (.done (some entry))) (hpc : ∀ entry, pc ≠ .done entry) :
    entry ∈ l := by
  cases pc with
  | start => cases hturn
  | test ptr =>
    have hend := Except.ok.inj hturn
    split_ifs at hend
    cases hend
  | walk ptr k =>
    obtain ⟨front, behind, rfl, hk, hptr⟩ := h
    cases ptr with
    | none => cases k <;> cases hturn
    | some p =>
      obtain ⟨c, rest, hload, rfl, hrest⟩ := hptr.at_entry
      cases k with
      | zero =>
        rw [ReadPc.turn, deref_eq hload] at hturn
        obtain rfl := Option.some.inj (ReadPc.done.inj (Except.ok.inj hturn))
        exact hhead.entry hl (q := p) (a := c.addr) (by simp) hload
      | succ k =>
        rw [ReadPc.turn, deref_eq hload] at hturn
        cases hturn
  | done entry => exact absurd rfl (hpc entry)

end Read

/-! ## Reads among threads -/

namespace Reading

variable {ι : Type} [DecidableEq ι] {num : UInt8} {ops : List StatOp}
  {keys : List (Nat × Ipv6Addr)} {s s' : Reading ι} {e : ReadEvent ι}

theorem step_store {e : StoreEvent ι} :
    step num s (.store e) = some s' ↔ ∃ stats, s.stats.step e = some stats ∧ s' = ⟨stats, s.pc⟩ := by
  simp only [step, Option.map_eq_some_iff, eq_comm (b := s')]

theorem step_turn :
    step num s .turn = some s' ↔ ∃ pc, s.pc.turn num s.stats.mem = .ok pc ∧ s' = ⟨s.stats, pc⟩ := by
  simp only [step, Option.map_eq_some_iff, toOption_eq_some, eq_comm (b := s')]

theorem step_call (hstep : step num s .call = some s') : s' = ⟨s.stats, .start⟩ := by
  dsimp only [step] at hstep
  split at hstep
  · exact (Option.some.inj hstep).symm
  · cases hstep

/-- The reader changes nothing that the threads use. -/
theorem stats_step (hstep : step num s e = some s') :
    s'.stats = s.stats ∨ ∃ e', e = .store e' ∧ s.stats.step e' = some s'.stats := by
  cases e with
  | store e' =>
    obtain ⟨stats, hstats, rfl⟩ := step_store.mp hstep
    exact Or.inr ⟨e', rfl, hstats⟩
  | call =>
    obtain rfl := step_call hstep
    exact Or.inl rfl
  | turn =>
    obtain ⟨pc, -, rfl⟩ := step_turn.mp hstep
    exact Or.inl rfl

theorem linked_step (h : s.stats.Linked) (hstep : step num s e = some s') : s'.stats.Linked := by
  rcases stats_step hstep with hsame | ⟨e', -, hstats⟩
  · rwa [hsame]
  · exact SharedStats.linked_step h hstats

theorem follows_step (hcall : e ≠ .call) (hlinked : s.stats.Linked)
    (h : s.pc.Finds s.stats num keys) (hstep : step num s e = some s') :
    s'.pc.Finds s'.stats num keys := by
  cases e with
  | store e' =>
    obtain ⟨stats, hstats, rfl⟩ := step_store.mp hstep
    exact h.store hlinked hstats
  | call => exact absurd rfl hcall
  | turn =>
    obtain ⟨pc, hturn, rfl⟩ := step_turn.mp hstep
    exact h.turn hturn

theorem follows_run {events : List (ReadEvent ι)} (hcalls : ∀ e ∈ events, e ≠ .call)
    (hlinked : s.stats.Linked) (h : s.pc.Finds s.stats num keys)
    (hrun : run (step num) s events = some s') : s'.pc.Finds s'.stats num keys := by
  have hmeets : Meets (step num) (fun _ e => e ≠ .call) s events := Meets.of_forall hcalls
  have hboth : s'.stats.Linked ∧ s'.pc.Finds s'.stats num keys :=
    run_invariant (I := fun s => s.stats.Linked ∧ s.pc.Finds s.stats num keys)
      (fun _ _ _ hcall h hstep => ⟨linked_step h.1 hstep, follows_step hcall h.1 h.2 hstep⟩)
      hmeets ⟨hlinked, h⟩ hrun
  exact hboth.2

/-- **`ptr = head`.** -/
theorem finds_head (hreaches : s.stats.Reaches s.stats.mem.head keys) (hstart : s.pc = .start)
    (hstep : step num s .turn = some s') : s'.pc.Finds s'.stats num keys := by
  obtain ⟨pc, hturn, rfl⟩ := step_turn.mp hstep
  rw [hstart] at hturn
  obtain rfl := Except.ok.inj hturn
  refine ⟨hreaches, fun hnone => ?_⟩
  rw [hnone] at hreaches
  exact hreaches.at_end

theorem rank_step (hcall : e ≠ .call) (hstep : step num s e = some s') :
    s'.pc.rank num ≤ s.pc.rank num - e.isTurn.toNat := by
  cases e with
  | store e' =>
    obtain ⟨stats, -, rfl⟩ := step_store.mp hstep
    exact Nat.le_refl _
  | call => exact absurd rfl hcall
  | turn =>
    obtain ⟨pc, hturn, rfl⟩ := step_turn.mp hstep
    show pc.rank num ≤ s.pc.rank num - 1
    cases hpc : s.pc with
    | start =>
      rw [hpc] at hturn
      obtain rfl := Except.ok.inj hturn
      exact Nat.le_refl _
    | test ptr =>
      rw [hpc] at hturn
      obtain rfl := Except.ok.inj hturn
      split_ifs
      · exact Nat.zero_le _
      · exact Nat.le_refl _
    | walk ptr k =>
      rw [hpc] at hturn
      cases ptr with
      | none =>
        cases k with
        | zero =>
          obtain rfl := Except.ok.inj hturn
          exact Nat.le_refl _
        | succ k => cases hturn
      | some p =>
        cases k with
        | zero =>
          obtain ⟨c, -, hend⟩ := bind_eq_ok.mp hturn
          obtain rfl := Except.ok.inj hend
          exact Nat.le_refl _
        | succ k =>
          obtain ⟨c, -, hend⟩ := bind_eq_ok.mp hturn
          obtain rfl := Except.ok.inj hend
          exact Nat.le_refl _
    | done entry =>
      rw [hpc] at hturn
      obtain rfl := Except.ok.inj hturn
      exact Nat.zero_le _

theorem rank_run {events : List (ReadEvent ι)} (hcalls : ∀ e ∈ events, e ≠ .call)
    (hrun : run (step num) s events = some s') :
    s'.pc.rank num ≤ s.pc.rank num - events.countP ReadEvent.isTurn := by
  induction events generalizing s with
  | nil =>
    obtain rfl := Option.some.inj hrun
    exact Nat.le_refl _
  | cons e events ih =>
    obtain ⟨u, hu, hrun⟩ := run_cons_eq_some.mp hrun
    obtain ⟨hcall, hcalls⟩ := List.forall_mem_cons.mp hcalls
    have hfirst := rank_step hcall hu
    have hrest := ih hcalls hrun
    rw [List.countP_cons]
    cases hturn : e.isTurn with
    | false =>
      rw [hturn] at hfirst
      simp only [Bool.toNat_false, Bool.false_eq_true, if_false] at hfirst ⊢
      omega
    | true =>
      rw [hturn] at hfirst
      simp only [Bool.toNat_true, if_true] at hfirst ⊢
      omega

/--
**A read finds the entry that has the number when it begins.** Whatever the threads do after
`ptr = head`, the reader can go on as long as there were entries up to the number, it comes to its end
after its turns, and the entry has the address that was at the number.
-/
theorem read_among_threads {m : Mem} {l₀ l : List NeighborEntryl} (hm : m.Holds l₀)
    (before : List (ReadEvent ι)) (hbefore : run (step num) (boot ι m) before = some s)
    (hstart : s.pc = .start) (hl : s.stats.mem.Holds l) (during : List (ReadEvent ι))
    (hcalls : ∀ e ∈ during, e ≠ .call) (hrun : run (step num) s (.turn :: during) = some s') :
    (num.toNat ≤ l.length + 1 → ∃ s'', step num s' .turn = some s'') ∧
      (∀ entry, s'.pc = .done entry →
        entry.map NeighborEntryl.addr = (entryAt l num).map NeighborEntryl.addr) ∧
      (num.toNat - 1 + 2 ≤ during.countP ReadEvent.isTurn → ∃ entry, s'.pc = .done entry) := by
  have hlinked : s.stats.Linked :=
    run_preserves (I := fun s => s.stats.Linked) (fun _ _ _ h hstep => linked_step h hstep)
      (SharedStats.linked_boot hm) hbefore
  obtain ⟨keys, hkeys⟩ := hlinked.reaches .head
  have haddrs := hkeys.list hl
  obtain ⟨s₁, hfirst, hduring⟩ := run_cons_eq_some.mp hrun
  have hfinds : s'.pc.Finds s'.stats num keys :=
    follows_run hcalls (linked_step hlinked hfirst) (finds_head hkeys hstart hfirst) hduring
  refine ⟨fun hnum => ?_, fun entry hdone => ?_, fun hturns => ?_⟩
  · have hlen : l.length = keys.length := by simpa using congrArg List.length haddrs
    rw [hlen] at hnum
    obtain ⟨pc, hturn⟩ := hfinds.next hnum
    exact ⟨_, step_turn.mpr ⟨pc, hturn, rfl⟩⟩
  · rw [hdone] at hfinds
    rw [entryAt, ← List.getElem?_map, haddrs, List.getElem?_map]
    exact hfinds
  · have hrank := rank_run hcalls hduring
    have hleft : s₁.pc.rank num = num.toNat - 1 + 2 := by
      obtain ⟨pc, hturn, rfl⟩ := step_turn.mp hfirst
      rw [hstart] at hturn
      obtain rfl := Except.ok.inj hturn
      rfl
    cases hpc : s'.pc with
    | start | test _ | walk _ _ =>
      rw [hpc, hleft] at hrank
      simp only [ReadPc.rank] at hrank
      omega
    | done entry => exact ⟨entry, rfl⟩

/-- The CoAP thread discovers a neighbour. -/
def discovery (a : Ipv6Addr) : List (StoreEvent Bool) :=
  .begin true (.discover a) SharedStats.smallCell ::
    List.replicate 4 (.turn true SharedStats.smallCell)

def discovers (a : Ipv6Addr) : List (ReadEvent Bool) := (discovery a).map .store

theorem read_among_threads_small :
    ∃ s s', run (step 1) (boot Bool .empty) (discovers 1) = some s ∧
      run (step 1) s (.turn :: (.turn :: discovers 2 ++ [.turn])) = some s' ∧
      ∃ entry, s'.pc = .done entry ∧ entry.map NeighborEntryl.addr = some 1 := by
  have hholds : ∀ heap : Heap NeighborCell, heap.load 0 = some ⟨unmeasured 1, none⟩ →
      Mem.Holds ⟨heap, some 0⟩ [unmeasured 1] :=
    fun heap hload => ⟨[(0, _)], .cons hload .nil, List.nodup_singleton 0, rfl⟩
  obtain ⟨s, s', hbefore, hstart, hl, hrun⟩ : ∃ s s' : Reading Bool,
      run (step 1) (boot Bool .empty) (discovers 1) = some s ∧ s.pc = .start ∧
      s.stats.mem.Holds [unmeasured 1] ∧
      run (step 1) s (.turn :: (.turn :: discovers 2 ++ [.turn])) = some s' :=
    ⟨_, _, rfl, rfl, hholds _ rfl, rfl⟩
  obtain ⟨-, hentry, hend⟩ := read_among_threads Mem.holds_empty (discovers 1) hbefore hstart hl
    (.turn :: discovers 2 ++ [.turn]) (by simp [discovers, discovery]) hrun
  obtain ⟨entry, hdone⟩ := hend (by decide)
  exact ⟨s, s', hbefore, hrun, entry, hdone, hentry entry hdone⟩

/-- The other threads leave the reader where it is. -/
theorem pc_others {others : List (StoreEvent ι)}
    (hrun : run (step num) s (others.map .store) = some s') : s'.pc = s.pc := by
  induction others generalizing s with
  | nil =>
    obtain rfl := Option.some.inj hrun
    rfl
  | cons e others ih =>
    obtain ⟨u, hu, hrun⟩ := run_cons_eq_some.mp hrun
    obtain ⟨stats, -, rfl⟩ := step_store.mp hu
    exact ih (s := ⟨stats, s.pc⟩) hrun

/--
**`head` is read twice.** A read that begins when the list is empty returns without an entry if the
list is still empty at `if (head == NULL)`. Otherwise it follows NULL, whatever happens afterwards,
provided that its number is not 0 or 1.
-/
theorem empty_read {m : Mem} {l₀ : List NeighborEntryl} (hm : m.Holds l₀)
    (before : List (ReadEvent ι)) (hbefore : run (step num) (boot ι m) before = some s)
    (hstart : s.pc = .start) (hl : s.stats.mem.Holds []) (hnum : 2 ≤ num.toNat)
    (others : List (StoreEvent ι)) (hrun : run (step num) s (.turn :: others.map .store) = some s') :
    ∃ s'', step num s' .turn = some s'' ∧
      (s'.stats.mem.Holds [] → s''.pc = .done none) ∧
      (¬ s'.stats.mem.Holds [] → ∀ (more : List (StoreEvent ι)) t,
        run (step num) s'' (more.map .store) = some t → step num t .turn = none) := by
  have hlinked : s.stats.Linked :=
    run_preserves (I := fun s => s.stats.Linked) (fun _ _ _ h hstep => linked_step h hstep)
      (SharedStats.linked_boot hm) hbefore
  obtain ⟨s₁, hfirst, hothers⟩ := run_cons_eq_some.mp hrun
  have hpc : s'.pc = .test none := by
    obtain ⟨pc, hturn, rfl⟩ := step_turn.mp hfirst
    rw [hstart] at hturn
    obtain rfl := Except.ok.inj hturn
    obtain ⟨cells, hcells⟩ := hl
    rw [pc_others hothers, hcells.head_eq_none.mpr rfl]
  have hturn : s'.pc.turn num s'.stats.mem
      = .ok (if s'.stats.mem.head = none then .done none else .walk none (num.toNat - 1)) := by
    rw [hpc]
    rfl
  refine ⟨_, step_turn.mpr ⟨_, hturn, rfl⟩, fun hempty => ?_, fun hentry more t hmore => ?_⟩
  · obtain ⟨cells, hcells⟩ := hempty
    exact if_pos (hcells.head_eq_none.mpr rfl)
  · have hhead : s'.stats.mem.head ≠ none := by
      intro hnone
      have hlinked' : s'.stats.Linked :=
        run_preserves (I := fun s => s.stats.Linked) (fun _ _ _ h hstep => linked_step h hstep)
          (linked_step hlinked hfirst) hothers
      obtain ⟨l, cells, hcells⟩ := hlinked'.holds
      obtain rfl := hcells.head_eq_none.mp hnone
      exact hentry ⟨cells, hcells⟩
    have hwalk : t.pc = .walk none (num.toNat - 2 + 1) := by
      rw [pc_others hmore]
      show (if s'.stats.mem.head = none then ReadPc.done none else .walk none (num.toNat - 1)) = _
      rw [if_neg hhead]
      congr 1
      omega
    rw [step, hwalk]
    rfl

theorem empty_read_small :
    ∃ s s', run (step 2) (boot Bool .empty) (.turn :: discovers 1) = some s ∧
      step 2 s .turn = some s' ∧ step 2 s' .turn = none := by
  have hbefore : run (step 2) (boot Bool .empty) [] = some (boot Bool .empty) := rfl
  have hempty : (boot Bool .empty).stats.mem.Holds [] := Mem.holds_empty
  obtain ⟨s, hrun, hhead⟩ : ∃ s, run (step 2) (boot Bool .empty) (.turn :: discovers 1) = some s ∧
      s.stats.mem.head = some 0 := ⟨_, rfl, rfl⟩
  obtain ⟨s', hstep, -, hstuck⟩ := empty_read Mem.holds_empty [] hbefore rfl hempty (by decide)
    (discovery 1) hrun
  refine ⟨s, s', hrun, hstep, hstuck ?_ [] s' rfl⟩
  rintro ⟨cells, hcells⟩
  rw [hcells.head_eq_none.mpr rfl] at hhead
  cases hhead

/-! ## Two reads -/

/-- A read that begins in `s` and has only its last turn to go in `s'`, which reads `entry`. -/
structure Reads (num : UInt8) (s : Reading ι) (during : List (ReadEvent ι)) (s' : Reading ι)
    (entry : NeighborEntryl) : Prop where
  start : s.pc = .start
  once : ∀ e ∈ during, e ≠ .call
  run : run (step num) s (.turn :: during) = some s'
  unread : ∀ entry, s'.pc ≠ .done entry
  last : s'.pc.turn num s'.stats.mem = .ok (.done (some entry))

theorem reads_of_walk (during : List (ReadEvent ι)) (hstart : s.pc = .start)
    (honce : ∀ e ∈ during, e ≠ .call) (hrun : run (step num) s (.turn :: during) = some s') {p : Nat}
    {entry : NeighborEntryl} {next : Option Nat} (hpc : s'.pc = .walk (some p) 0)
    (hload : s'.stats.mem.heap.load p = some ⟨entry, next⟩) : Reads num s during s' entry := by
  refine ⟨hstart, honce, hrun, fun entry => ?_, ?_⟩
  · rw [hpc]
    simp
  · rw [hpc, ReadPc.turn, deref_eq hload]
    rfl

/-- The threads keep the map, and the list as it was once is the end of the list. -/
structure Kept (ops : List StatOp) (keys : List (Nat × Ipv6Addr)) (done : List StatOp)
    (s : Reading ι) : Prop where
  linked : s.stats.Linked
  exact : ∃ cells, s.stats.Exact ops cells
  grown : ∃ new, s.stats.Reaches s.stats.mem.head (new ++ keys)
  later : ∃ new, s.stats.done = done ++ new

variable {done : List StatOp}

theorem kept_step (hrace : s.Unraced e) (h : s.Kept ops keys done)
    (hstep : step num s e = some s') : s'.Kept ops keys done := by
  rcases stats_step hstep with hsame | ⟨e', rfl, hstats⟩
  · exact ⟨hsame ▸ h.linked, hsame ▸ h.exact, hsame ▸ h.grown, hsame ▸ h.later⟩
  · obtain ⟨cells, hcells⟩ := h.exact
    obtain ⟨new, hnew⟩ := h.grown
    obtain ⟨ops', hops⟩ := h.later
    obtain ⟨new', hnew'⟩ := hnew.grows h.linked hrace hstats
    refine ⟨SharedStats.linked_step h.linked hstats,
      SharedStats.exact_step h.linked hrace hstats hcells, ⟨new' ++ new, ?_⟩, ?_⟩
    · rwa [List.append_assoc]
    · obtain ⟨r, -, heq⟩ := h.linked.moves hstats
      refine ⟨ops' ++ r.2.2, ?_⟩
      rw [heq, ← List.append_assoc, ← hops]
      rfl

theorem kept_run {events : List (ReadEvent ι)} (hrace : Meets (step num) Unraced s events)
    (h : s.Kept ops keys done) (hrun : run (step num) s events = some s') : s'.Kept ops keys done :=
  run_invariant (fun _ _ _ hrace h hstep => kept_step hrace h hstep) hrace h hrun

omit [DecidableEq ι] in
/-- The list is the map of the last results, but for entries where an operation is halfway. -/
theorem Kept.store (h : s.Kept ops keys done) (hkeys : s.stats.Reaches s.stats.mem.head keys') :
    ∃ l, s.stats.mem.Holds l ∧ StoreUpTo s.stats.Halfway (ops ++ s.stats.done) l ∧
      l.map NeighborEntryl.addr = keys'.map Prod.snd := by
  obtain ⟨cells, hcells⟩ := h.exact
  have hl : s.stats.mem.Holds (cells.map (·.2.toNeighborEntryl)) :=
    ⟨cells, hcells.links, hcells.links.nodup, rfl⟩
  exact ⟨_, hl, hcells.store, hkeys.list hl⟩

/-- What a read finds, and its address. -/
theorem Reads.finds {during : List (ReadEvent ι)} {entry : NeighborEntryl}
    (h : Reads num s during s' entry) (hlinked : s.stats.Linked)
    (hkeys : s.stats.Reaches s.stats.mem.head keys) :
    s'.pc.Finds s'.stats num keys ∧ (keys.map Prod.snd)[num.toNat - 1]? = some entry.addr := by
  obtain ⟨s₁, hfirst, hduring⟩ := run_cons_eq_some.mp h.run
  have hfinds : s'.pc.Finds s'.stats num keys :=
    follows_run h.once (linked_step hlinked hfirst) (finds_head hkeys h.start hfirst) hduring
  refine ⟨hfinds, ?_⟩
  have hdone : some entry.addr = keys[num.toNat - 1]?.map Prod.snd := hfinds.turn h.last
  rw [List.getElem?_map, ← hdone]

/-- In a list without repetitions an element keeps its place if nothing comes in front. -/
theorem getElem?_append_iff {α : Type} {new old : List α} (h : (new ++ old).Nodup) {k : Nat} {a b : α}
    (ha : old[k]? = some a) (hb : (new ++ old)[k]? = some b) : b = a ↔ new = [] := by
  constructor
  · rintro rfl
    have hsame : (new ++ old)[k]? = (new ++ old)[new.length + k]? := by
      rw [hb, List.getElem?_append_right (Nat.le_add_right _ _), Nat.add_sub_cancel_left, ha]
    have hlt : k < (new ++ old).length := (List.getElem?_eq_some_iff.mp hb).1
    have hk := (List.getElem?_inj hlt h).mp hsame
    exact List.length_eq_zero_iff.mp (by omega)
  · rintro rfl
    exact Option.some.inj (hb.symm.trans ha)

/-- Nothing has come in front exactly if only known addresses were used. -/
theorem front_eq_nil_iff {half half' : Ipv6Addr → Prop} {l l' : List NeighborEntryl}
    {known new : List StatOp} {front : List Ipv6Addr} (hl : StoreUpTo half known l)
    (hl' : StoreUpTo half' (known ++ new) l')
    (hfront : l'.map NeighborEntryl.addr = front ++ l.map NeighborEntryl.addr) :
    front = [] ↔ ∀ op ∈ new, op.addr ∈ known.map StatOp.addr := by
  constructor
  · rintro rfl op hop
    rw [← hl.mentioned, ← List.nil_append (l.map _), ← hfront, hl'.mentioned]
    exact List.mem_map_of_mem (List.mem_append_right _ hop)
  · intro hknown
    refine List.eq_nil_iff_forall_not_mem.mpr fun a ha => ?_
    have hnodup := hl'.nodup
    rw [hfront, List.nodup_append] at hnodup
    refine hnodup.2.2 a ha a ?_ rfl
    have hmem : a ∈ (known ++ new).map StatOp.addr := by
      rw [← hl'.mentioned, hfront]
      exact List.mem_append_left _ ha
    rw [hl.mentioned]
    rw [List.map_append, List.mem_append] at hmem
    rcases hmem with hmem | hmem
    · exact hmem
    · obtain ⟨op, hop, rfl⟩ := List.mem_map.mp hmem
      exact hknown op hop

/--
**What two reads with one number find belongs together** exactly if no address was added between
their beginnings. What the second one reads are the last results of a neighbour, in that case the one
that the first one has found. Only the latency can be another one, while a thread stands between its
two stores to this entry.
-/
theorem reads_belong_together {m : Mem} {l₀ : List NeighborEntryl} (hm : m.Holds l₀)
    (hs : StoreOf ops l₀) {before first between second : List (ReadEvent ι)}
    {s s₁ s₂ s₃ : Reading ι} {e₁ e₂ : NeighborEntryl}
    (hbefore : run (step num) (boot ι m) before = some s) (hfirst : Reads num s first s₁ e₁)
    (hbetween : run (step num) s₁ between = some s₂) (hsecond : Reads num s₂ second s₃ e₂)
    (hrace : Meets (step num) Unraced (boot ι m)
      (before ++ (.turn :: first ++ (between ++ .turn :: second)))) :
    UpTo s₃.stats.Halfway (lastResults (ops ++ s₃.stats.done) e₂.addr) e₂ ∧
      (¬ s₃.stats.Halfway e₂.addr → e₂ = lastResults (ops ++ s₃.stats.done) e₂.addr) ∧
      ∃ new, s₂.stats.done = s.stats.done ++ new ∧
        (e₂.addr = e₁.addr ↔ ∀ op ∈ new, op.addr ∈ (ops ++ s.stats.done).map StatOp.addr) := by
  have hkept : ∃ keys, s.Kept ops keys s.stats.done ∧ s.stats.Reaches s.stats.mem.head keys := by
    obtain ⟨cells, hcells⟩ := hm
    have hboot : (boot ι m).Kept ops [] [] := by
      refine ⟨SharedStats.linked_boot ⟨cells, hcells⟩, ⟨cells, SharedStats.exact_boot hcells hs⟩, ?_,
        [], rfl⟩
      obtain ⟨keys, hkeys⟩ := (SharedStats.linked_boot ⟨cells, hcells⟩).reaches .head
      exact ⟨keys, by rwa [List.append_nil]⟩
    have hs := kept_run hrace.of_prefix hboot hbefore
    obtain ⟨keys, hkeys⟩ := hs.linked.reaches .head
    exact ⟨keys, ⟨hs.linked, hs.exact, ⟨[], hkeys⟩, [], by simp⟩, hkeys⟩
  obtain ⟨keys, h, hkeys⟩ := hkept
  have hrace₁ := hrace.of_append hbefore
  have hrace₂ := hrace₁.of_append hfirst.run
  -- what there is when the second read begins
  have h₂ := kept_run hrace₂.of_prefix (kept_run hrace₁.of_prefix h hfirst.run) hbetween
  obtain ⟨front, hkeys₂⟩ := h₂.grown
  obtain ⟨new, hnew⟩ := h₂.later
  obtain ⟨l, -, hstore, haddrs⟩ := h.store hkeys
  obtain ⟨l₂, -, hstore₂, haddrs₂⟩ := h₂.store hkeys₂
  obtain ⟨-, hfound⟩ := hfirst.finds h.linked hkeys
  obtain ⟨hfinds, hfound₂⟩ := hsecond.finds h₂.linked hkeys₂
  -- what there is at its last turn
  have h₃ : s₃.Kept ops (front ++ keys) s₂.stats.done :=
    kept_run (hrace₂.of_append hbetween) ⟨h₂.linked, h₂.exact, ⟨[], hkeys₂⟩, [], by simp⟩ hsecond.run
  obtain ⟨front₃, hkeys₃⟩ := h₃.grown
  obtain ⟨l₃, hl₃, hstore₃, -⟩ := h₃.store hkeys₃
  have hresults := hstore₃.results e₂ (hfinds.last hkeys₃ hl₃ hsecond.last hsecond.unread)
  refine ⟨hresults, hresults.eq, new, hnew, ?_⟩
  rw [hnew, ← List.append_assoc] at hstore₂
  rw [List.map_append, ← haddrs] at haddrs₂ hfound₂
  rw [← haddrs] at hfound
  have hnodup := hstore₂.nodup
  rw [haddrs₂] at hnodup
  rw [getElem?_append_iff hnodup hfound hfound₂]
  exact front_eq_nil_iff hstore hstore₂ haddrs₂

/-- The shell stores a latency result. -/
def measures (a : Ipv6Addr) (lat loss : UInt32) : List (ReadEvent Bool) :=
  (StoreEvent.begin false (.latency a lat loss) SharedStats.smallCell ::
    List.replicate 4 (.turn false SharedStats.smallCell)).map .store

theorem reads_belong_together_small :
    ∃ s s₁ s₂ s₃ e₁ e₂, run (step 1) (boot Bool .empty) (discovers 1) = some s ∧
      Reads 1 s [.turn] s₁ e₁ ∧
      run (step 1) s₁ (.turn :: (measures 1 5 10 ++ [.call])) = some s₂ ∧
      Reads 1 s₂ [.turn] s₃ e₂ ∧ e₂ = lastResults s₃.stats.done e₂.addr ∧ e₂.addr = e₁.addr ∧
      e₂.latency = 5 ∧ e₂.packetLoss = 10 := by
  obtain ⟨s, s₁, hbefore, hfirst, hbetween⟩ : ∃ s s₁ : Reading Bool,
      run (step 1) (boot Bool .empty) (discovers 1) = some s ∧ Reads 1 s [.turn] s₁ (unmeasured 1) ∧
      ∃ s₂ s₃, run (step 1) s₁ (.turn :: (measures 1 5 10 ++ [.call])) = some s₂ ∧
        Reads 1 s₂ [.turn] s₃ { unmeasured 1 with latency := 5, packetLoss := 10 } ∧
        (s₃.stats.pc true = .idle ∧ s₃.stats.pc false = .idle) :=
    ⟨_, _, rfl, reads_of_walk ([.turn] : List (ReadEvent Bool)) rfl (by simp) rfl rfl rfl, _, _, rfl,
      reads_of_walk ([.turn] : List (ReadEvent Bool)) rfl (by simp) rfl rfl rfl, rfl, rfl⟩
  obtain ⟨s₂, s₃, hbetween, hsecond, htrue, hfalse⟩ := hbetween
  obtain ⟨-, hlast, -⟩ := reads_belong_together Mem.holds_empty storeOf_nil hbefore hfirst hbetween
    hsecond (by decide +kernel)
  refine ⟨s, s₁, s₂, s₃, _, _, hbefore, hfirst, hbetween, hsecond, hlast ?_, rfl, rfl, rfl⟩
  rintro ⟨t, lat, loss, node, ptr, hpc⟩
  cases t with
  | false => simp [hfalse] at hpc
  | true => simp [htrue] at hpc

end Reading

end Dca
