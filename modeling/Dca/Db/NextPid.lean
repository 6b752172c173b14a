import Mathlib.Order.Bounds.Basic
import Dca.Db.Tour

/-!
# The next pid

The loop of `_get_next_pid` compares the pid with the end of the table before it reads the slot, so
that the second comparison, in the condition of the loop, never fails. What it returns is the next
occupied slot, or the end, and going on from there visits all occupied slots.
-/

namespace Dca

open CLib

/-! ## The statement -/

section Statement

variable (env : Env)

/--
The loop of `_get_next_pid` as it is written, with the slots that it reads. A read outside of
`sched_threads` is an error, and `fuel` bounds the rounds.
-/
def getNextPidReads : Nat → Nat → Res (Nat × List Nat)
  | 0, _ => .error .fuel
  | fuel + 1, pid => do
    let pid := pid + 1
    if pid = env.kernelPidLast + 1 then return (env.kernelPidLast + 1, [])
    let p ← env.thread pid
    if pid ≤ env.kernelPidLast ∧ p = none then
      let (next, reads) ← getNextPidReads fuel pid
      return (next, pid :: reads)
    else return (pid, [pid])

/-- `_get_next_pid` again and again until it returns `KERNEL_PID_LAST + 1`. -/
def visitPids : Nat → Nat → Res (List Nat)
  | 0, _ => .error .fuel
  | fuel + 1, pid => do
    let next ← getNextPid env pid
    if next = env.kernelPidLast + 1 then return []
    return next :: (← visitPids fuel next)

/--
From this pid on free slots are skipped and no others: the next pid is the least one that is
occupied or the end, no slot behind the end is read, and the pids that come are the occupied ones.
-/
structure SkipsFreeSlots (pid : Nat) : Prop where
  returns : ∃ next reads, getNextPid env pid = .ok next ∧
    (∀ fuel ≥ env.kernelPidLast + 1 - pid, getNextPidReads env fuel pid = .ok (next, reads)) ∧
    (∀ slot ∈ reads, pid < slot ∧ slot ≤ env.kernelPidLast) ∧
    IsLeast {p | pid < p ∧ (env.Live p ∨ p = env.kernelPidLast + 1)} next
  visits : ∃ pids, (∀ fuel ≥ env.kernelPidLast + 1 - pid, visitPids env fuel pid = .ok pids) ∧
    pids.Pairwise (· < ·) ∧ ∀ p, p ∈ pids ↔ pid < p ∧ env.Live p

end Statement

variable {env : Env}

/-! ## One call -/

/-- The loop reads the slots behind the pid up to the one that it returns. -/
theorem getNextPidReads_eq (n : Nat) {pid next : Nat} (hn : pid + n = env.kernelPidLast + 1)
    (hnext : getNextPidLoop env n pid = .ok next) :
    ∃ reads, (∀ fuel ≥ n, getNextPidReads env fuel pid = .ok (next, reads)) ∧
      ∀ slot ∈ reads, pid < slot ∧ slot ≤ env.kernelPidLast := by
  induction n generalizing pid with
  | zero => cases hnext
  | succ n ih =>
    unfold getNextPidLoop at hnext
    by_cases hend : pid + 1 = env.kernelPidLast + 1
    · rw [if_pos hend] at hnext
      obtain rfl := Except.ok.inj hnext
      refine ⟨[], ?_, by simp⟩
      intro fuel hfuel
      obtain ⟨fuel, rfl⟩ : ∃ k, fuel = k + 1 := ⟨fuel - 1, by omega⟩
      simp only [getNextPidReads, if_pos hend, pure_eq_ok]
    · rw [if_neg hend] at hnext
      have hle : pid + 1 ≤ env.kernelPidLast := by omega
      have hread : env.thread (pid + 1) = .ok (env.schedThreads (pid + 1)) := if_pos hle
      cases hslot : env.schedThreads (pid + 1) with
      | none =>
        rw [hslot] at hnext
        obtain ⟨reads, hreads, hbounds⟩ := ih (by omega) hnext
        refine ⟨(pid + 1) :: reads, ?_, ?_⟩
        · intro fuel hfuel
          obtain ⟨fuel, rfl⟩ : ∃ k, fuel = k + 1 := ⟨fuel - 1, by omega⟩
          simp only [getNextPidReads, if_neg hend, hread, hslot, ok_bind, hle, and_self, if_true,
            hreads fuel (by omega), pure_eq_ok]
        · refine List.forall_mem_cons.mpr ⟨⟨Nat.lt_succ_self pid, hle⟩, fun slot hmem => ?_⟩
          obtain ⟨hlt, hlast⟩ := hbounds slot hmem
          exact ⟨by omega, hlast⟩
      | some p =>
        rw [hslot] at hnext
        obtain rfl := Except.ok.inj hnext
        refine ⟨[pid + 1], ?_, ?_⟩
        · intro fuel hfuel
          obtain ⟨fuel, rfl⟩ : ∃ k, fuel = k + 1 := ⟨fuel - 1, by omega⟩
          simp only [getNextPidReads, if_neg hend, hread, hslot, ok_bind, reduceCtorEq, and_false,
            if_false, pure_eq_ok]
        · exact List.forall_mem_singleton.mpr ⟨Nat.lt_succ_self pid, hle⟩

/-- On its way to the next pid the loop passes no occupied slot. -/
theorem pidsFrom_getNextPid {pid next : Nat} (hfirst : kernelPidFirst ≤ pid)
    (hlast : pid ≤ env.kernelPidLast) (h : getNextPid env pid = .ok next) :
    getNextPidLoop env (env.kernelPidLast + 1 - pid) pid = .ok next ∧
      env.pidsFrom (pid + 1) = env.pidsFrom next := by
  have hle : pid ≤ env.kernelPidLast + 1 := by omega
  simp only [getNextPid, hfirst, hle, decide_true, assert_true, ok_bind] at h
  exact ⟨h, pidsFrom_loop env _ pid (by omega) (by omega) h⟩

/-- **The next pid is the least one behind the pid.** -/
theorem isLeast_getNextPid {pid next : Nat} (hfirst : kernelPidFirst ≤ pid)
    (hlast : pid ≤ env.kernelPidLast) (h : getNextPid env pid = .ok next) :
    IsLeast {p | pid < p ∧ (env.Live p ∨ p = env.kernelPidLast + 1)} next := by
  obtain ⟨next', hnext', hlt, hend⟩ := getNextPid_eq hfirst hlast
  obtain rfl := Except.ok.inj (h.symm.trans hnext')
  refine ⟨⟨hlt, hend⟩, ?_⟩
  rintro p ⟨hp, hlive | rfl⟩
  · -- an occupied slot behind the pid is not in front of the next one
    have hmem : p ∈ env.pidsFrom (pid + 1) := mem_pidsFrom.mpr ⟨hp, hlive.2⟩
    rw [(pidsFrom_getNextPid hfirst hlast h).2] at hmem
    exact (mem_pidsFrom.mp hmem).1
  · rcases hend with hlive | rfl
    · exact Nat.le_succ_of_le hlive.2.1
    · exact Nat.le_refl _

/-! ## All calls -/

/-- **The visited pids are the occupied ones**, by induction on what is left of the table. -/
theorem visitPids_eq (n : Nat) {pid : Nat} (hn : pid + n = env.kernelPidLast + 1)
    (hfirst : kernelPidFirst ≤ pid) (hpos : 0 < n) {fuel : Nat} (hfuel : n ≤ fuel) :
    visitPids env fuel pid = .ok (env.pidsFrom (pid + 1)) := by
  induction n using Nat.strongRecOn generalizing pid fuel with
  | ind n ih =>
    obtain ⟨fuel, rfl⟩ : ∃ k, fuel = k + 1 := ⟨fuel - 1, by omega⟩
    have hlast : pid ≤ env.kernelPidLast := by omega
    obtain ⟨next, hnext, hlt, hend⟩ := getNextPid_eq hfirst hlast
    rw [(pidsFrom_getNextPid hfirst hlast hnext).2]
    rcases hend with hlive | rfl
    · have hle : next ≤ env.kernelPidLast := hlive.2.1
      have hne : ¬ next = env.kernelPidLast + 1 := by omega
      have hrest : visitPids env fuel next = .ok (env.pidsFrom (next + 1)) :=
        ih (env.kernelPidLast + 1 - next) (by omega) (by omega) hlive.1 (by omega) (by omega)
      simp only [visitPids, hnext, ok_bind, if_neg hne, hrest, pure_eq_ok]
      rw [pidsFrom_cons hle, if_pos hlive.2.2]
    · simp only [visitPids, hnext, ok_bind, if_true, pure_eq_ok]
      rw [pidsFrom_last]

theorem pairwise_pidsFrom (env : Env) (pid : Nat) : (env.pidsFrom pid).Pairwise (· < ·) :=
  List.Pairwise.filter _ List.pairwise_lt_range'

/-- **Advancing to the next pid skips exactly the free slots.** -/
theorem skipsFreeSlots (env : Env) (pid : Nat) (hfirst : kernelPidFirst ≤ pid)
    (hlast : pid ≤ env.kernelPidLast) : SkipsFreeSlots env pid where
  returns := by
    obtain ⟨next, hnext, -, -⟩ := getNextPid_eq hfirst hlast
    obtain ⟨reads, hreads, hbounds⟩ := getNextPidReads_eq (env.kernelPidLast + 1 - pid) (by omega)
      (pidsFrom_getNextPid hfirst hlast hnext).1
    exact ⟨next, reads, hnext, hreads, hbounds, isLeast_getNextPid hfirst hlast hnext⟩
  visits := by
    refine ⟨env.pidsFrom (pid + 1), ?_, pairwise_pidsFrom env _, ?_⟩
    · intro fuel hfuel
      exact visitPids_eq _ (by omega) hfirst (by omega) hfuel
    · intro p
      rw [mem_pidsFrom]
      constructor
      · rintro ⟨hlt, hlive⟩
        exact ⟨hlt, by omega, hlive⟩
      · rintro ⟨hlt, -, hlive⟩
        exact ⟨hlt, hlive⟩

theorem skipsFreeSlots_small : SkipsFreeSlots smallEnv 1 :=
  skipsFreeSlots smallEnv 1 (by decide) (by decide)

end Dca
