import Xv6.Kernel.Reach

/-!
# `UNUSED` process slots

`allocproc` resets hardly any field of the slot it takes, so it relies on `freeproc` and on
everybody else to leave an `UNUSED` slot clean.  `kkill` looks for a slot with the pid it is given,
in whatever state that slot is, and the pid of an `UNUSED` slot is zero: `kill(0)` sets the `killed`
flag of a slot that is not in use, and the next process in it is born killed.  This is the only way
for a slot to become dirty.
-/

namespace Xv6

namespace Kernel

section

variable [Layout] {G : Multiset ℕ} {k : Kernel}

/-- The slot is one that `kkill` may report and change. -/
structure Killed (k k' : Kernel) (pid : ℤ) (i : ℕ) : Prop where
  lt : i < NPROC
  used : (k.proc i).state ≠ .unused
  pid : (k.proc i).pid = pid
  others : ∀ j ≠ i, k'.proc j = k.proc j

lemma kkill_killed (h : Reached True G k) {pid r : ℤ} {k' : Kernel}
    (hpid : pid = 0 → ∀ i < NPROC, (k.proc i).state ≠ .unused)
    (hk : kkill pid k = .ok (r, k')) : (r = 0 ∧ ∃ i, Killed k k' pid i) ∨ (r = -1 ∧ k' = k) := by
  obtain ⟨tab, P, hinv⟩ := h
  obtain ⟨-, hres⟩ := (kkill_spec hinv fun _ => hpid).of_eq_ok hk
  rcases hres with hfail | ⟨hr, i, hi, hpi, rfl⟩
  · exact Or.inr hfail
  · refine Or.inl ⟨hr, i, hi, fun hu => hpid ?_ i hi hu, hpi, fun j hj => Function.update_of_ne hj ..⟩
    rw [← hpi]
    exact ((hinv.slot i hi).clean hu).1.pid

lemma kfork_not_killed (h : Reached True G k) {p i : ℕ} {r : ℤ} {k' : Kernel} (hp : p < NPROC)
    (hst : (k.proc p).state = .running) (hk : kfork p k = .ok (r, k')) (hi : i < NPROC)
    (hu : (k.proc i).state = .unused) : (k'.proc i).killed = false := by
  obtain ⟨tab, P, hinv⟩ := h
  exact ((kfork_spec hinv hp hst).of_eq_ok hk).2 i hi hu trivial

/-- **`UNUSED` slots are clean** after every run in which nobody calls `kill(0)` while there is one.
So a process that `kfork` makes has not been killed, and `kkill` succeeds only for a slot that is in
use, and changes no other one. -/
theorem unused_slots_clean {m : Mem} {ops : List KernelOp} (hm : m.Used G)
    (hok : StepsOk step NoStrayKill (boot m) ops)
    (hrun : run step (boot m) ops = some k) :
    (∀ i < NPROC, (k.proc i).state = .unused → (k.proc i).Clean ∧ (k.proc i).killed = false) ∧
    (∀ p r k', p < NPROC → (k.proc p).state = .running → kfork p k = .ok (r, k') →
      ∀ i < NPROC, (k.proc i).state = .unused → (k'.proc i).killed = false) ∧
    ∀ pid r k', (pid = 0 → ∀ i < NPROC, (k.proc i).state ≠ .unused) → kkill pid k = .ok (r, k') →
      (r = 0 ∧ ∃ i, Killed k k' pid i) ∨ (r = -1 ∧ k' = k) := by
  have h := reached_run_of_noStrayKill hm hok hrun
  refine ⟨fun i hi hu => ?_, fun p r k' hp hst hk i hi => kfork_not_killed h hp hst hk hi,
    fun pid r k' => kkill_killed h⟩
  obtain ⟨tab, P, hinv⟩ := h
  obtain ⟨hclean, hkilled⟩ := (hinv.slot i hi).clean hu
  exact ⟨hclean, hkilled trivial⟩

end

section

local instance layoutUnused : Layout := smallLayout

/-- `wait` frees the slot of a child that has exited. -/
lemma wait_frees {z : Prop} {G : Multiset ℕ} {k : Kernel} {p pp : ℕ} (h : Reached z G k)
    (hp : p < NPROC) (hst : (k.proc p).state = .running)
    (hfind : (List.range NPROC).find? (fun i =>
      (k.proc i).parent = some p ∧ (k.proc i).state = .zombie) = some pp) :
    ∃ k', step k (.wait p 0) = some k' ∧ (k'.proc pp).state = .unused := by
  obtain ⟨tab, P, hinv⟩ := h
  have hslot : wp (kwait p 0) (fun r k' => r ≠ none ∧ (k'.proc pp).state = .unused)
      (fun _ => True) k := by
    simp only [kwait, wp_bind, wp_get, hfind]
    rw [if_neg (by simp)]
    simp only [wp_bind, wp_setProc, wp_pure]
    exact freeproc_effect.imp fun _ _ hk => ⟨Option.some_ne_none _, hk.1⟩
  have hexec : Returns (exec (.wait p 0)) (fun _ k' => (k'.proc pp).state = .unused) k := by
    simp only [Returns, exec, running, wp_bind, wp_get]
    rw [wp_ite_pos ⟨hp, hst⟩, wp_bind]
    refine ((kwait_spec hinv hp hst 0).and hslot).imp ?_
    rintro r k₁ ⟨-, hr, hun⟩
    obtain ⟨r, rfl⟩ := Option.ne_none_iff_exists'.mp hr
    exact hun
  obtain ⟨_, k', heq, hun⟩ := hexec.exists_eq
  exact ⟨k', by rw [step, heq], hun⟩

/-- The first process forks, and the child exits. -/
def forkExit : List KernelOp := [.userinit 1, .schedule 0, .fork 0, .schedule 1, .exit 1 7]

/-- After its parent has waited for the child, the slot that it had is clean again. -/
theorem unused_slots_clean_reaped : ∃ k,
    run step (boot smallMem) (forkExit ++ [.wait 0 0]) = some k ∧
      (k.proc 1).Clean ∧ (k.proc 1).killed = false := by
  have hrun : (run step (boot smallMem) forkExit).map
      (fun k => ((k.proc 0).state, (List.range NPROC).find? fun i =>
        (k.proc i).parent = some 0 ∧ (k.proc i).state = .zombie)) = some (.running, some 1) := by
    decide +kernel
  obtain ⟨k, hk, h⟩ := Option.map_eq_some_iff.mp hrun
  obtain ⟨hst, hfind⟩ := Prod.mk.inj h
  obtain ⟨k', hstep, hun⟩ := wait_frees (reached_run smallMem_used hk) (by decide) hst hfind
  have hk' : run step (boot smallMem) (forkExit ++ [.wait 0 0]) = some k' :=
    run_append_eq_some.mpr ⟨k, hk, run_cons_eq_some.mpr ⟨k', hstep, rfl⟩⟩
  have hok : StepsOk step NoStrayKill (boot smallMem) (forkExit ++ [.wait 0 0]) := by
    simp [forkExit, StepsOk, NoStrayKill]
  exact ⟨k', hk', (unused_slots_clean smallMem_used hok hk').1 1 (by decide) hun⟩

/-- `kill(0)` returns 0, with no process of that pid, and marks slot 1, which is `UNUSED`; the child
that `fork` then puts into the slot is killed from the start. -/
theorem kill_zero_marks_unused : ((run step (boot smallMem) [.userinit 1, .schedule 0]).bind
        fun k => (kkill 0 k).toOption.map fun (r, k') => (r, k'.proc 1)).map
          (fun (r, q) => (r, q.state, q.killed)) = some (0, .unused, true) ∧
      (run step (boot smallMem) [.userinit 1, .schedule 0, .kill 0 0]).map
        (fun k => ((k.proc 1).state, (k.proc 1).killed)) = some (.unused, true) ∧
      (run step (boot smallMem) [.userinit 1, .schedule 0, .kill 0 0, .fork 0]).map
        (fun k => ((k.proc 1).state, (k.proc 1).pid, (k.proc 1).killed)) =
          some (.runnable, 2, true) := by
  decide +kernel

end

end Kernel
end Xv6
