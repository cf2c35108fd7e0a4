import Xv6.Param

/-!
# Process slots

`struct proc` of `kernel/proc.h` and the parts of `kernel/proc.c` that run under one `p->lock`:
each is a function on the slot.  A channel is a kernel address, and the null channel is `0`.
-/

namespace Xv6

/-- `enum procstate`. -/
inductive ProcState
  | unused
  | used
  | sleeping
  | runnable
  | running
  | zombie
  deriving DecidableEq, Repr

/-- `struct proc`.  Pointers to pages are their addresses, with `0` for null; the parent is the
index of its slot; open files and the current directory are indices of the file and inode
tables. -/
structure Proc where
  state : ProcState := .unused
  chan : ℕ := 0  -- if non-zero, sleeping on `chan`
  killed : Bool := false
  xstate : ℤ := 0  -- exit status to be returned to the parent's `wait`
  pid : ℤ := 0
  parent : Option ℕ := none
  sz : ℕ := 0  -- size of process memory (bytes)
  pagetable : ℕ := 0
  trapframe : ℕ := 0
  ofile : ℕ → Option ℕ := fun _ => none
  cwd : Option ℕ := none

namespace Proc

/-- `sleep_prepare`: register for wakeups on `c`. -/
def sleepPrepare (c : ℕ) (p : Proc) : Proc := { p with chan := c }

/-- `sleep`: go to sleep unless the registered channel has been woken up in the meantime. -/
def sleep (p : Proc) : Proc := if p.chan ≠ 0 then { p with state := .sleeping } else p

/-- The body of `wakeup`'s loop at one slot. -/
def wakeup (c : ℕ) (p : Proc) : Proc :=
  if p.chan = c then
    { p with chan := 0, state := if p.state = .sleeping then .runnable else p.state }
  else p

/-- What `kkill` does to the slot it finds. -/
def kkill (p : Proc) : Proc :=
  { p with killed := true, state := if p.state = .sleeping then .runnable else p.state }

/-- `yield`: give up the CPU for one scheduling round. -/
def yield (p : Proc) : Proc := { p with state := .runnable }

/-- What `scheduler` does to the slot it chooses. -/
def schedule (p : Proc) : Proc := { p with state := .running }

/-- The slot after `freeproc`. -/
def freed (q : Proc) : Proc :=
  { q with
    trapframe := 0, pagetable := 0, sz := 0, pid := 0, chan := 0, killed := false, xstate := 0
    state := .unused }

/-! ## What the sections do to `chan` and `state` -/

variable {p : Proc} {c : ℕ}

lemma wakeup_of_ne (h : p.chan ≠ c) : p.wakeup c = p := if_neg h

/-- A slot that a wakeup has passed is not registered for its channel. -/
lemma wakeup_chan_ne (hc : c ≠ 0) : (p.wakeup c).chan ≠ c := by
  unfold wakeup
  split
  · exact hc.symm
  · assumption

lemma wakeup_chan_eq_or : (p.wakeup c).chan = p.chan ∨ (p.wakeup c).chan = 0 := by
  unfold wakeup
  split
  · exact Or.inr rfl
  · exact Or.inl rfl

/-- A slot that sleeps after a wakeup slept before it, on another channel. -/
lemma wakeup_sleeping (h : (p.wakeup c).state = .sleeping) :
    p.state = .sleeping ∧ p.chan ≠ c := by
  unfold wakeup at h
  split at h
  · dsimp only at h
    split at h
    · exact absurd h (by decide)
    · exact absurd h ‹_›
  · exact ⟨h, ‹_›⟩

lemma wakeup_running (h : p.state = .running) : (p.wakeup c).state = .running := by
  unfold wakeup
  split
  · simp [h]
  · exact h

@[simp] lemma wakeup_pid : (p.wakeup c).pid = p.pid := by
  unfold wakeup
  split <;> rfl

lemma wakeup_unused : (p.wakeup c).state = .unused ↔ p.state = .unused := by
  unfold wakeup
  split
  · dsimp only
    split <;> simp_all
  · exact Iff.rfl

lemma kkill_unused : p.kkill.state = .unused ↔ p.state = .unused := by
  unfold kkill
  dsimp only
  split <;> simp_all

lemma kkill_state_ne_sleeping : p.kkill.state ≠ .sleeping := by
  unfold kkill
  dsimp only
  split
  · decide
  · assumption

@[simp] lemma kkill_chan : p.kkill.chan = p.chan := rfl

@[simp] lemma sleep_chan : p.sleep.chan = p.chan := by
  unfold sleep
  split <;> rfl

@[simp] lemma sleep_pid : p.sleep.pid = p.pid := by
  unfold sleep
  split <;> rfl

lemma sleep_unused (h : p.state = .running) : p.sleep.state = .unused ↔ p.state = .unused := by
  unfold sleep
  split <;> simp [h]

lemma sleep_of_chan_eq_zero (h : p.chan = 0) : p.sleep = p := if_neg (by simp [h])

end Proc
end Xv6
