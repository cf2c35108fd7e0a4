import Xv6.Proc.Slot
import Xv6.Lib.Run

/-!
# Kernel threads around one spinlock

Code such as that of a pipe, a sleep-lock or the log has one shape: threads that share data
under a spinlock, test a condition, and wait for it with `sleep_prepare`, `release`, `sleep`,
`acquire`.  This file gives such code a semantics, in which a program maps code positions to
instructions (`Instr`), and every critical section under a `p->lock` is a step of its own: a
`wakeup` visits one slot at a time, and `kkill`, the scheduler and timer interrupts may strike
between any two steps.

The second half is a proof rule for waiting.  A `Monitor` names, for one channel, the condition
that a waiter at each position waits out (`waits`), the positions that hold the spinlock, what the
holder knows there (`assert`), and where it still owes the waiters a wakeup (`owes`).  If the
program keeps the local obligations `Monitor.Ok`, then whenever the spinlock is free no process
sleeps on the channel unless its condition holds (`Monitor.Inv.waits_of_sleeping`).
-/

namespace Xv6

open Function Option

/-! ## Programs -/

/-- The outcome of an atomic action on the shared data. -/
inductive Outcome (σ L : Type)
  | stuck  -- not possible with this choice
  | panic (msg : String)
  | next (sh : σ) (l : L)

/-- An instruction of a kernel thread.  `σ` is the shared data, `L` the code positions and `C`
the choices that the thread does not determine, such as the result of a user copy. -/
inductive Instr (σ L C : Type)
  | acquire (l : L)
  | release (l : L)
  | killed (yes no : L)  -- branch on `killed(myproc())`
  | sleepPrepare (c : ℕ) (l : L)
  | sleep (l : L)
  | wakeup (c : ℕ) (l : L)
  | act (f : σ → C → Outcome σ L)

/-- Where a thread is: at an instruction, or in the loop of a `wakeup` at slot `k`. -/
inductive Ctl (L : Type)
  | pc (l : L)
  | scan (c k : ℕ) (l : L)

/-- The position a thread is at, or returns to. -/
@[simp] def Ctl.pos {L : Type} : Ctl L → L
  | .pc l => l
  | .scan _ _ l => l

/-- The state of the threads, one for each process slot. -/
structure Threads (σ L : Type) where
  sh : σ
  lock : Option ℕ  -- the holder of the spinlock
  proc : ℕ → Proc
  ctl : ℕ → Ctl L
  panicked : Option String

/-- What happens next: a thread runs, or something happens to it. -/
inductive ThreadStep (C : Type)
  | run (t : ℕ) (ch : C)
  | kkill (t : ℕ)
  | yield (t : ℕ)
  | schedule (t : ℕ)

variable {σ L C : Type}

namespace Threads

/-- Move thread `t` to another position. -/
def goto (s : Threads σ L) (t : ℕ) (x : Ctl L) : Threads σ L :=
  { s with ctl := update s.ctl t x }

/-- Replace the slot of process `t`. -/
def setProc (s : Threads σ L) (t : ℕ) (p : Proc) : Threads σ L :=
  { s with proc := update s.proc t p }

/-- The effect of one instruction of thread `t`. -/
def exec (s : Threads σ L) (t : ℕ) (ch : C) : Instr σ L C → Option (Threads σ L)
  | .acquire l =>
    if s.lock = none then some ({ s with lock := some t }.goto t (.pc l)) else none
  | .release l =>
    if s.lock = some t then some ({ s with lock := none }.goto t (.pc l))
    else some { s with panicked := some "release" }
  | .killed yes no => some (s.goto t (.pc (if (s.proc t).killed then yes else no)))
  | .sleepPrepare c l =>
    if c = 0 then some { s with panicked := some "sleep_prepare: zero chan" }
    else some ((s.setProc t ((s.proc t).sleepPrepare c)).goto t (.pc l))
  | .sleep l => some ((s.setProc t (s.proc t).sleep).goto t (.pc l))
  | .wakeup c l => some (s.goto t (.scan c 0 l))
  | .act f =>
    match f s.sh ch with
    | .stuck => none
    | .panic msg => some { s with panicked := some msg }
    | .next sh l => some ({ s with sh := sh }.goto t (.pc l))

/-- What thread `t` does when it gets to run. -/
def turn (code : L → Instr σ L C) (s : Threads σ L) (t : ℕ) (ch : C) : Option (Threads σ L) :=
  match s.ctl t with
  | .pc l => s.exec t ch (code l)
  | .scan c k l =>
    if k < NPROC then
      some ((s.setProc k ((s.proc k).wakeup c)).goto t (.scan c (k + 1) l))
    else some (s.goto t (.pc l))

/-- One step of the system running `code`.  A thread runs only while its process does, and a
timer interrupt does not preempt the holder of a spinlock. -/
def step (code : L → Instr σ L C) (s : Threads σ L) : ThreadStep C → Option (Threads σ L)
  | .run t ch =>
    if s.panicked = none ∧ t < NPROC ∧ (s.proc t).state = .running then turn code s t ch else none
  | .kkill t => if s.panicked = none then some (s.setProc t (s.proc t).kkill) else none
  | .yield t =>
    if s.panicked = none ∧ (s.proc t).state = .running ∧ s.lock ≠ some t then
      some (s.setProc t (s.proc t).yield)
    else none
  | .schedule t =>
    if s.panicked = none ∧ (s.proc t).state = .runnable then
      some (s.setProc t (s.proc t).schedule)
    else none

/-- One step of a system of `n` threads.  Those from `NPROC` on have no process: they are interrupt
handlers and devices, and run at any time. -/
def stepOn (n : ℕ) (code : L → Instr σ L C) (s : Threads σ L) :
    ThreadStep C → Option (Threads σ L)
  | .run t ch =>
    if t < NPROC then step code s (.run t ch)
    else if s.panicked = none ∧ t < n then turn code s t ch else none
  | a => step code s a

/-- Without interrupt handlers and devices. -/
lemma step_eq_stepOn (code : L → Instr σ L C) (s : Threads σ L) (a : ThreadStep C) :
    step code s a = stepOn NPROC code s a := by
  cases a with
  | run t ch =>
    rw [stepOn]
    split
    · rfl
    · rw [step, if_neg (fun h => ‹¬t < NPROC› h.2.1), if_neg (fun h => ‹¬t < NPROC› h.2)]
  | _ => rfl

/-- The positions of all threads. -/
def pcs (s : Threads σ L) (t : ℕ) : L := (s.ctl t).pos

lemma pcs_goto (s : Threads σ L) (t : ℕ) (x : Ctl L) :
    (s.goto t x).pcs = update s.pcs t x.pos := by
  funext u
  by_cases hu : u = t
  · subst hu
    simp [pcs, goto]
  · simp [pcs, goto, hu]

end Threads

/-- After a panic nothing happens any more. -/
lemma Threads.step_of_panicked {code : L → Instr σ L C} {s : Threads σ L} {msg : String}
    (h : s.panicked = some msg) (a : ThreadStep C) : Threads.step code s a = none := by
  cases a <;> simp [Threads.step, h]

lemma Threads.run_of_panicked {code : L → Instr σ L C} {s s' : Threads σ L} {msg : String}
    (h : s.panicked = some msg) {as : List (ThreadStep C)}
    (hrun : run (Threads.step code) s as = some s') : s' = s := by
  cases as with
  | nil => exact (some.inj hrun).symm
  | cons a as =>
    obtain ⟨t, ht, -⟩ := run_cons_eq_some.mp hrun
    rw [Threads.step_of_panicked h] at ht
    exact absurd ht (by simp)

/-- What a step can do, one constructor for each outcome of an instruction. -/
inductive Threads.Acts (n : ℕ) (code : L → Instr σ L C) (s : Threads σ L) :
    ThreadStep C → Threads σ L → Prop
  | kkill (t) : Acts n code s (.kkill t) (s.setProc t (s.proc t).kkill)
  | yield (t) (hrun : (s.proc t).state = .running) (hlock : s.lock ≠ some t) :
    Acts n code s (.yield t) (s.setProc t (s.proc t).yield)
  | schedule (t) (hrun : (s.proc t).state = .runnable) :
    Acts n code s (.schedule t) (s.setProc t (s.proc t).schedule)
  | scan (t ch c k l) (ht : t < n) (hrun : t < NPROC → (s.proc t).state = .running)
    (hpc : s.ctl t = .scan c k l) (hk : k < NPROC) :
    Acts n code s (.run t ch) ((s.setProc k ((s.proc k).wakeup c)).goto t (.scan c (k + 1) l))
  | scanEnd (t ch c k l) (ht : t < n) (hrun : t < NPROC → (s.proc t).state = .running)
    (hpc : s.ctl t = .scan c k l) (hk : ¬k < NPROC) : Acts n code s (.run t ch) (s.goto t (.pc l))
  | acquire (t ch l l') (ht : t < n) (hrun : t < NPROC → (s.proc t).state = .running)
    (hpc : s.ctl t = .pc l) (hi : code l = .acquire l') (hfree : s.lock = none) :
    Acts n code s (.run t ch) ({ s with lock := some t }.goto t (.pc l'))
  | release (t ch l l') (ht : t < n) (hrun : t < NPROC → (s.proc t).state = .running)
    (hpc : s.ctl t = .pc l) (hi : code l = .release l') (hlock : s.lock = some t) :
    Acts n code s (.run t ch) ({ s with lock := none }.goto t (.pc l'))
  | badRelease (t ch l l') (ht : t < n) (hpc : s.ctl t = .pc l) (hi : code l = .release l')
    (hlock : s.lock ≠ some t) : Acts n code s (.run t ch) { s with panicked := some "release" }
  | killed (t ch l yes no) (ht : t < n) (hrun : t < NPROC → (s.proc t).state = .running)
    (hpc : s.ctl t = .pc l) (hi : code l = .killed yes no) :
    Acts n code s (.run t ch) (s.goto t (.pc (if (s.proc t).killed then yes else no)))
  | zeroChan (t ch l l') (ht : t < n) (hpc : s.ctl t = .pc l)
    (hi : code l = .sleepPrepare 0 l') :
    Acts n code s (.run t ch) { s with panicked := some "sleep_prepare: zero chan" }
  | sleepPrepare (t ch l c l') (ht : t < n) (hrun : t < NPROC → (s.proc t).state = .running)
    (hpc : s.ctl t = .pc l) (hi : code l = .sleepPrepare c l') (hc : c ≠ 0) :
    Acts n code s (.run t ch) ((s.setProc t ((s.proc t).sleepPrepare c)).goto t (.pc l'))
  | sleep (t ch l l') (ht : t < n) (hrun : t < NPROC → (s.proc t).state = .running)
    (hpc : s.ctl t = .pc l) (hi : code l = .sleep l') :
    Acts n code s (.run t ch) ((s.setProc t (s.proc t).sleep).goto t (.pc l'))
  | wakeup (t ch l c l') (ht : t < n) (hrun : t < NPROC → (s.proc t).state = .running)
    (hpc : s.ctl t = .pc l) (hi : code l = .wakeup c l') :
    Acts n code s (.run t ch) (s.goto t (.scan c 0 l'))
  | act (t ch l f x l') (ht : t < n) (hrun : t < NPROC → (s.proc t).state = .running)
    (hpc : s.ctl t = .pc l) (hi : code l = .act f) (hf : f s.sh ch = .next x l') :
    Acts n code s (.run t ch) ({ s with sh := x }.goto t (.pc l'))
  | panic (t ch l f msg) (ht : t < n) (hpc : s.ctl t = .pc l) (hi : code l = .act f)
    (hf : f s.sh ch = .panic msg) : Acts n code s (.run t ch) { s with panicked := some msg }

variable {s s' : Threads σ L} {n t u : ℕ} {a : ThreadStep C}

/-- What a thread can do when it gets to run. -/
lemma Threads.acts_of_turn {code : L → Instr σ L C} {ch : C}
    (ht : t < n) (hrun : t < NPROC → (s.proc t).state = .running)
    (h : Threads.turn code s t ch = some s') : Threads.Acts n code s (.run t ch) s' := by
  rw [Threads.turn] at h
  cases hpc : s.ctl t with
  | scan c k l =>
    simp only [hpc] at h
    split at h
    · obtain rfl := some.inj h
      exact .scan t ch c k l ht hrun hpc ‹_›
    · obtain rfl := some.inj h
      exact .scanEnd t ch c k l ht hrun hpc ‹_›
  | pc l =>
    simp only [hpc] at h
    cases hi : code l with
    | acquire l' =>
      obtain ⟨hfree, rfl⟩ : s.lock = none ∧ _ = s' := by simpa [Threads.exec, hi] using h
      exact .acquire t ch l l' ht hrun hpc hi hfree
    | release l' =>
      rw [hi, Threads.exec] at h
      split at h
      · obtain rfl := some.inj h
        exact .release t ch l l' ht hrun hpc hi ‹_›
      · obtain rfl := some.inj h
        exact .badRelease t ch l l' ht hpc hi ‹_›
    | killed yes no =>
      rw [hi] at h
      obtain rfl := some.inj h
      exact .killed t ch l yes no ht hrun hpc hi
    | sleepPrepare c l' =>
      rw [hi, Threads.exec] at h
      split at h
      case isTrue hc =>
        subst hc
        obtain rfl := some.inj h
        exact .zeroChan t ch l l' ht hpc hi
      case isFalse hc =>
        obtain rfl := some.inj h
        exact .sleepPrepare t ch l c l' ht hrun hpc hi hc
    | sleep l' =>
      rw [hi] at h
      obtain rfl := some.inj h
      exact .sleep t ch l l' ht hrun hpc hi
    | wakeup c l' =>
      rw [hi] at h
      obtain rfl := some.inj h
      exact .wakeup t ch l c l' ht hrun hpc hi
    | act f =>
      rw [hi, Threads.exec] at h
      cases hf : f s.sh ch with
      | stuck => simp [hf] at h
      | panic msg =>
        simp only [hf] at h
        obtain rfl := some.inj h
        exact .panic t ch l f msg ht hpc hi hf
      | next x l' =>
        simp only [hf] at h
        obtain rfl := some.inj h
        exact .act t ch l f x l' ht hrun hpc hi hf

lemma Threads.acts_of_stepOn {code : L → Instr σ L C}
    (h : Threads.stepOn n code s a = some s') (hn : NPROC ≤ n) :
    s.panicked = none ∧ Threads.Acts n code s a s' := by
  cases a with
  | kkill t =>
    obtain ⟨hp, rfl⟩ : s.panicked = none ∧ _ = s' := by
      simpa [Threads.stepOn, Threads.step] using h
    exact ⟨hp, .kkill t⟩
  | yield t =>
    obtain ⟨⟨hp, hrun, hlock⟩, rfl⟩ :
        (s.panicked = none ∧ (s.proc t).state = .running ∧ ¬s.lock = some t) ∧ _ = s' := by
      simpa [Threads.stepOn, Threads.step] using h
    exact ⟨hp, .yield t hrun hlock⟩
  | schedule t =>
    obtain ⟨⟨hp, hrun⟩, rfl⟩ : (s.panicked = none ∧ (s.proc t).state = .runnable) ∧ _ = s' := by
      simpa [Threads.stepOn, Threads.step] using h
    exact ⟨hp, .schedule t hrun⟩
  | run t ch =>
    rw [Threads.stepOn] at h
    split at h
    case isTrue ht =>
      rw [Threads.step] at h
      split at h
      case isFalse => exact absurd h (by simp)
      case isTrue hen =>
        obtain ⟨hp, -, hrun⟩ := hen
        exact ⟨hp, Threads.acts_of_turn (by omega) (fun _ => hrun) h⟩
    case isFalse ht =>
      split at h
      case isFalse => exact absurd h (by simp)
      case isTrue hen =>
        obtain ⟨hp, htn⟩ := hen
        exact ⟨hp, Threads.acts_of_turn htn (fun hlt => absurd hlt ht) h⟩

lemma Threads.acts_of_step {code : L → Instr σ L C} (h : Threads.step code s a = some s') :
    s.panicked = none ∧ Threads.Acts NPROC code s a s' :=
  Threads.acts_of_stepOn (Threads.step_eq_stepOn code s a ▸ h) (Nat.le_refl _)

/-- The positions an instruction other than an action can go on to. -/
def Instr.Next : Instr σ L C → L → Prop
  | .acquire l, l' | .release l, l' | .sleepPrepare _ l, l' | .sleep l, l' | .wakeup _ l, l' => l' = l
  | .killed yes no, l' => l' = yes ∨ l' = no
  | .act _, _ => False

/-- An instruction at position `l` takes and releases the spinlock as `holds` says. -/
def Instr.LockOk (holds : L → Bool) (l : L) : Instr σ L C → Prop
  | .acquire l' => holds l = false ∧ holds l' = true
  | .release l' => holds l = true ∧ holds l' = false
  | .killed yes no => holds yes = holds l ∧ holds no = holds l
  | .sleepPrepare _ l' | .sleep l' | .wakeup _ l' => holds l' = holds l
  | .act f => ∀ x ch x' l', f x ch = .next x' l' → holds l' = holds l

/-- The positions tell who holds the spinlock. -/
def Threads.Locked (holds : L → Bool) (s : Threads σ L) : Prop :=
  ∀ t, s.lock = some t ↔ holds (s.pcs t) = true

lemma Threads.Locked.unique {holds : L → Bool} (h : s.Locked holds)
    (ht : holds (s.pcs t) = true) (hu : holds (s.pcs u) = true) : t = u :=
  some.inj (((h t).2 ht).symm.trans ((h u).2 hu))

/-- A thread that moves without touching the lock. -/
lemma Threads.Locked.goto {holds : L → Bool} (h : s.Locked holds)
    {l : L} (hl : holds l = holds (s.pcs t)) (hpcs : s'.pcs = update s.pcs t l)
    (hlock : s'.lock = s.lock) : s'.Locked holds := by
  intro u
  rw [hlock, h u, hpcs, proj_update holds hl]

lemma Threads.Locked.step {holds : L → Bool} {code : L → Instr σ L C}
    (hcode : ∀ l, (code l).LockOk holds l) (h : s.Locked holds)
    (hs : Threads.step code s a = some s') : s'.Locked holds := by
  obtain ⟨-, hacts⟩ := Threads.acts_of_step hs
  have hpos : ∀ {t l}, s.ctl t = .pc l → s.pcs t = l := fun hpc => congrArg Ctl.pos hpc
  have hok : ∀ {t l i}, s.ctl t = .pc l → code l = i → i.LockOk holds (s.pcs t) :=
    fun hpc hi => hpos hpc ▸ hi ▸ hcode _
  cases hacts with
  | kkill | yield | schedule => exact h
  | badRelease | zeroChan | panic => exact h
  | scan t ch c k l ht hrun hpc | scanEnd t ch c k l ht hrun hpc =>
    have hl : s.pcs t = l := congrArg Ctl.pos hpc
    exact h.goto (t := t) (l := l) (by rw [hl]) (Threads.pcs_goto ..) rfl
  | killed t ch l yes no ht hrun hpc hi =>
    have hyn := hok hpc hi
    refine h.goto (t := t) ?_ (Threads.pcs_goto ..) rfl
    dsimp only [Ctl.pos]
    split
    · exact hyn.1
    · exact hyn.2
  | sleepPrepare t ch l c l' ht hrun hpc hi | sleep t ch l l' ht hrun hpc hi
  | wakeup t ch l c l' ht hrun hpc hi =>
    exact h.goto (t := t) (hok hpc hi) (Threads.pcs_goto ..) rfl
  | act t ch l f x l' ht hrun hpc hi hf =>
    exact h.goto (t := t) (hok hpc hi _ _ _ _ hf) (Threads.pcs_goto ..) rfl
  | acquire t ch l l' ht hrun hpc hi hfree =>
    obtain ⟨-, hl'⟩ := hok hpc hi
    intro u
    rw [Threads.pcs_goto]
    change some t = some u ↔ holds (update s.pcs t l' u) = true
    by_cases hu : u = t
    · simp [hu, hl']
    · have hno : holds (s.pcs u) ≠ true := fun hu' => by
        rw [← h u, hfree] at hu'
        cases hu'
      simp [hu, Ne.symm hu, hno]
  | release t ch l l' ht hrun hpc hi hlock =>
    obtain ⟨-, hl'⟩ := hok hpc hi
    intro u
    rw [Threads.pcs_goto]
    change none = some u ↔ holds (update s.pcs t l' u) = true
    by_cases hu : u = t
    · simp [hu, hl']
    · have hno : holds (s.pcs u) ≠ true := fun hu' => by
        rw [← h u, hlock] at hu'
        exact hu (some.inj hu').symm
      simp [hu, hno]

/-- What a step can do to the data and the positions: nothing, move a thread, run an action, or
panic. -/
def Threads.Effect (n : ℕ) (code : L → Instr σ L C) (s : Threads σ L) (a : ThreadStep C)
    (s' : Threads σ L) : Prop :=
  (s'.sh = s.sh ∧ s'.pcs = s.pcs ∧ s'.panicked = none) ∨
  ∃ t < n, s.ctl t = .pc (s.pcs t) ∧
    ((∃ l', (code (s.pcs t)).Next l' ∧ s'.sh = s.sh ∧ s'.pcs = update s.pcs t l' ∧
      s'.panicked = none) ∨
    (∃ f ch l', a = .run t ch ∧ code (s.pcs t) = .act f ∧ f s.sh ch = .next s'.sh l' ∧
      s'.pcs = update s.pcs t l' ∧ s'.panicked = none) ∨
    (∃ msg, s'.sh = s.sh ∧ s'.pcs = s.pcs ∧ s'.panicked = some msg ∧
      ((∃ l, code (s.pcs t) = .release l ∧ msg = "release") ∨
       (∃ l, code (s.pcs t) = .sleepPrepare 0 l ∧ msg = "sleep_prepare: zero chan") ∨
       ∃ f ch, a = .run t ch ∧ code (s.pcs t) = .act f ∧ f s.sh ch = .panic msg)))

lemma Threads.stepOn_cases {code : L → Instr σ L C}
    (hn : NPROC ≤ n) (h : Threads.stepOn n code s a = some s') : s.Effect n code a s' := by
  obtain ⟨hp, h⟩ := Threads.acts_of_stepOn h hn
  have hpos : ∀ {t l}, s.ctl t = .pc l → s.pcs t = l := fun hpc => congrArg Ctl.pos hpc
  have hctl : ∀ {t l}, s.ctl t = .pc l → s.ctl t = .pc (s.pcs t) := fun hpc => by
    rw [hpos hpc, hpc]
  have hstay : ∀ {t : ℕ} {x : Ctl L}, x.pos = s.pcs t → (s.goto t x).pcs = s.pcs := by
    intro t x hx
    rw [Threads.pcs_goto, hx, update_eq_self]
  cases h with
  | kkill | yield | schedule => exact Or.inl ⟨rfl, rfl, hp⟩
  | scan t ch c k l ht hrun hpc | scanEnd t ch c k l ht hrun hpc =>
    exact Or.inl ⟨rfl, hstay (congrArg Ctl.pos hpc).symm, hp⟩
  | acquire t ch l l' ht hrun hpc hi | release t ch l l' ht hrun hpc hi
  | sleepPrepare t ch l c l' ht hrun hpc hi | sleep t ch l l' ht hrun hpc hi
  | wakeup t ch l c l' ht hrun hpc hi =>
    refine Or.inr ⟨t, ht, hctl hpc, Or.inl ⟨l', ?_, rfl, Threads.pcs_goto .., hp⟩⟩
    rw [hpos hpc, hi]
    exact rfl
  | killed t ch l yes no ht hrun hpc hi =>
    refine Or.inr ⟨t, ht, hctl hpc, Or.inl ⟨_, ?_, rfl, Threads.pcs_goto .., hp⟩⟩
    rw [hpos hpc, hi]
    change (if _ then yes else no) = yes ∨ (if _ then yes else no) = no
    split
    · exact Or.inl rfl
    · exact Or.inr rfl
  | act t ch l f x l' ht hrun hpc hi hf =>
    refine Or.inr ⟨t, ht, hctl hpc, Or.inr (Or.inl ⟨f, ch, l', rfl, ?_, hf, Threads.pcs_goto .., hp⟩)⟩
    rw [hpos hpc, hi]
  | badRelease t ch l l' ht hpc hi =>
    refine Or.inr ⟨t, ht, hctl hpc, Or.inr (Or.inr ⟨_, rfl, rfl, rfl, Or.inl ⟨l', ?_, rfl⟩⟩)⟩
    rw [hpos hpc, hi]
  | zeroChan t ch l l' ht hpc hi =>
    refine Or.inr ⟨t, ht, hctl hpc,
      Or.inr (Or.inr ⟨_, rfl, rfl, rfl, Or.inr (Or.inl ⟨l', ?_, rfl⟩)⟩)⟩
    rw [hpos hpc, hi]
  | panic t ch l f msg ht hpc hi hf =>
    refine Or.inr ⟨t, ht, hctl hpc,
      Or.inr (Or.inr ⟨msg, rfl, rfl, rfl, Or.inr (Or.inr ⟨f, ch, rfl, ?_, hf⟩)⟩)⟩
    rw [hpos hpc, hi]

lemma Threads.step_cases {code : L → Instr σ L C} (h : Threads.step code s a = some s') :
    s.Effect NPROC code a s' :=
  Threads.stepOn_cases (Nat.le_refl _) (Threads.step_eq_stepOn code s a ▸ h)

/-- The rule for a fact on the data and the positions: only moves and actions have to be looked at. -/
lemma Threads.Effect.rule {code : L → Instr σ L C} {J : σ → (ℕ → L) → Prop}
    (h : s.Effect n code a s') (hJ : J s.sh s.pcs)
    (hmove : ∀ t < n, ∀ l', (code (s.pcs t)).Next l' → J s.sh (update s.pcs t l'))
    (hact : ∀ t < n, ∀ f ch l', a = .run t ch → code (s.pcs t) = .act f →
      f s.sh ch = .next s'.sh l' → J s'.sh (update s.pcs t l')) : J s'.sh s'.pcs := by
  obtain ⟨hsh, hpcs, -⟩ | ⟨t, ht, -, ⟨l', hnext, hsh, hpcs, -⟩ | ⟨f, ch, l', hrun, hf, hfx, hpcs, -⟩ |
    ⟨msg, hsh, hpcs, -⟩⟩ := h
  · rwa [hsh, hpcs]
  · rw [hsh, hpcs]
    exact hmove t ht l' hnext
  · rw [hpcs]
    exact hact t ht f ch l' hrun hf hfx
  · rwa [hsh, hpcs]

/-- A process that is asleep after a step slept before it, or has just gone to sleep. -/
lemma Threads.sleeping_cases {code : L → Instr σ L C}
    (h : Threads.step code s a = some s') (hu : (s'.proc u).state = .sleeping) :
    ((s.proc u).state = .sleeping ∧ s'.proc u = s.proc u ∧ s'.ctl u = s.ctl u) ∨
    ∃ l l', s.ctl u = .pc l ∧ code l = .sleep l' ∧ s'.ctl u = .pc l' ∧
      s'.proc u = (s.proc u).sleep ∧ (s.proc u).state = .running := by
  -- A slot that is replaced by one that is not asleep is not the slot of `u`.
  have hset : ∀ {q : ℕ} {p : Proc}, p.state ≠ .sleeping →
      ((s.setProc q p).proc u).state = .sleeping → (s.setProc q p).proc u = s.proc u := by
    intro q p hp hu
    refine update_of_ne ?_ ..
    rintro rfl
    exact hp (by simpa [Threads.setProc] using hu)
  -- A running thread moves nobody else.
  have hgo : ∀ {t : ℕ} {x : Ctl L}, (s.proc t).state = .running →
      (s.proc u).state = .sleeping → update s.ctl t x u = s.ctl u := by
    intro t x hrun hsl
    refine update_of_ne ?_ ..
    rintro rfl
    exact absurd (hrun.symm.trans hsl) (by simp)
  obtain ⟨-, h⟩ := Threads.acts_of_step h
  cases h with
  | kkill t =>
    have heq := hset Proc.kkill_state_ne_sleeping hu
    exact Or.inl ⟨heq ▸ hu, heq, rfl⟩
  | yield t =>
    have heq := hset (by simp [Proc.yield]) hu
    exact Or.inl ⟨heq ▸ hu, heq, rfl⟩
  | schedule t =>
    have heq := hset (by simp [Proc.schedule]) hu
    exact Or.inl ⟨heq ▸ hu, heq, rfl⟩
  | badRelease | zeroChan | panic => exact Or.inl ⟨hu, rfl, rfl⟩
  | scanEnd t ch c k l ht hrun | acquire t ch l l' ht hrun | release t ch l l' ht hrun
  | killed t ch l yes no ht hrun | wakeup t ch l c l' ht hrun | act t ch l f x l' ht hrun =>
    exact Or.inl ⟨hu, rfl, hgo (hrun ht) hu⟩
  | scan t ch c k l ht hrun =>
    have heq : (s.setProc k ((s.proc k).wakeup c)).proc u = s.proc u := by
      by_cases huk : u = k
      · subst huk
        have hself : (s.setProc u ((s.proc u).wakeup c)).proc u = (s.proc u).wakeup c :=
          update_self ..
        have hu : ((s.setProc u ((s.proc u).wakeup c)).proc u).state = .sleeping := hu
        rw [hself] at hu ⊢
        exact Proc.wakeup_of_ne (Proc.wakeup_sleeping hu).2
      · exact update_of_ne huk ..
    have hsl : (s.proc u).state = .sleeping := heq ▸ hu
    exact Or.inl ⟨hsl, heq, hgo (hrun ht) hsl⟩
  | sleepPrepare t ch l c l' ht hrun =>
    have heq := hset (p := (s.proc t).sleepPrepare c) (by simp [Proc.sleepPrepare, hrun ht]) hu
    have hsl : (s.proc u).state = .sleeping := heq ▸ hu
    exact Or.inl ⟨hsl, heq, hgo (hrun ht) hsl⟩
  | sleep t ch l l' ht hrun hpc hi =>
    by_cases hut : u = t
    · subst hut
      exact Or.inr ⟨l, l', hpc, hi, update_self .., update_self .., hrun ht⟩
    · have heq : (s.setProc t (s.proc t).sleep).proc u = s.proc u := update_of_ne hut ..
      have hsl : (s.proc u).state = .sleeping := heq ▸ hu
      exact Or.inl ⟨hsl, heq, hgo (hrun ht) hsl⟩

/-- No step changes a pid, or whether a slot is in use, and the thread of an unused slot stays
where it is. -/
lemma Threads.step_slot {code : L → Instr σ L C} (h : Threads.step code s a = some s') (u : ℕ) :
    (s'.proc u).pid = (s.proc u).pid ∧
      ((s'.proc u).state = .unused ↔ (s.proc u).state = .unused) ∧
      ((s.proc u).state = .unused → s'.ctl u = s.ctl u) := by
  have hset : ∀ {q : ℕ} {p : Proc}, p.pid = (s.proc q).pid →
      (p.state = .unused ↔ (s.proc q).state = .unused) →
      (update s.proc q p u).pid = (s.proc u).pid ∧
        ((update s.proc q p u).state = .unused ↔ (s.proc u).state = .unused) := fun hpid hstate =>
    ⟨proj_update Proc.pid hpid u,
      (proj_update (fun p : Proc => p.state = .unused) (propext hstate) u).to_iff⟩
  have hgo : ∀ {t : ℕ} {x : Ctl L}, (s.proc t).state = .running →
      (s.proc u).state = .unused → update s.ctl t x u = s.ctl u := by
    intro t x hrun hun
    refine update_of_ne ?_ ..
    rintro rfl
    exact absurd (hrun.symm.trans hun) (by simp)
  obtain ⟨-, h⟩ := Threads.acts_of_step h
  cases h with
  | kkill t =>
    obtain ⟨hpid, hstate⟩ := hset (q := t) (p := (s.proc t).kkill) rfl Proc.kkill_unused
    exact ⟨hpid, hstate, fun _ => rfl⟩
  | yield t hrun =>
    obtain ⟨hpid, hstate⟩ := hset (q := t) (p := (s.proc t).yield) rfl (by simp [Proc.yield, hrun])
    exact ⟨hpid, hstate, fun _ => rfl⟩
  | schedule t hrun =>
    obtain ⟨hpid, hstate⟩ :=
      hset (q := t) (p := (s.proc t).schedule) rfl (by simp [Proc.schedule, hrun])
    exact ⟨hpid, hstate, fun _ => rfl⟩
  | badRelease | zeroChan | panic => exact ⟨rfl, Iff.rfl, fun _ => rfl⟩
  | scanEnd t ch c k l ht hrun | acquire t ch l l' ht hrun | release t ch l l' ht hrun
  | killed t ch l yes no ht hrun | wakeup t ch l c l' ht hrun | act t ch l f x l' ht hrun =>
    exact ⟨rfl, Iff.rfl, hgo (hrun ht)⟩
  | scan t ch c k l ht hrun =>
    obtain ⟨hpid, hstate⟩ :=
      hset (q := k) (p := (s.proc k).wakeup c) Proc.wakeup_pid Proc.wakeup_unused
    exact ⟨hpid, hstate, hgo (hrun ht)⟩
  | sleepPrepare t ch l c l' ht hrun =>
    obtain ⟨hpid, hstate⟩ := hset (q := t) (p := (s.proc t).sleepPrepare c) rfl Iff.rfl
    exact ⟨hpid, hstate, hgo (hrun ht)⟩
  | sleep t ch l l' ht hrun =>
    obtain ⟨hpid, hstate⟩ := hset (q := t) (p := (s.proc t).sleep) Proc.sleep_pid
      (Proc.sleep_unused (hrun ht))
    exact ⟨hpid, hstate, hgo (hrun ht)⟩

/-! ## Monitors -/

/-- The annotation of a program for one channel. -/
structure Monitor (σ L : Type) where
  chan : ℕ
  waits : L → σ → Prop  -- what a process that sleeps on the channel at a position waits out
  lockInv : σ → Prop  -- what holds of the data when the spinlock is free
  holds : L → Prop  -- the positions inside the critical section
  assert : L → σ → Prop  -- what the holder of the spinlock knows at a position
  owes : L → Prop  -- where it still has to wake the channel before it may release
  armed : L → Option ℕ  -- the channel registered by the `sleep_prepare` before this position
  exempt : L → Prop  -- `killed` tests that are assumed to come out false
  known : L → σ → Prop := fun _ _ => True  -- what other invariants say of a thread at a position

namespace Monitor

variable (M : Monitor σ L)

/-- Going from `l` to `l'` without a change of the data keeps what the annotation says. -/
def Keeps (l l' : L) : Prop :=
  (M.holds l' ↔ M.holds l) ∧ M.armed l' = none ∧ (∀ x, M.assert l x → M.assert l' x) ∧
    (M.owes l → M.owes l')

/-- The local obligations of the instruction at position `l`.  An action outside the critical
section must not disturb what the others know. -/
def Ok (l : L) : Instr σ L C → Prop
  | .acquire l' => ¬M.holds l ∧ M.holds l' ∧ (∀ x, M.lockInv x → M.assert l' x) ∧
      M.armed l' = none
  | .release l' => M.holds l ∧ ¬M.holds l' ∧ (∀ x, M.assert l x → M.lockInv x) ∧ ¬M.owes l ∧
      M.armed l' = M.armed l ∧ ∀ x, M.armed l ≠ none → M.waits l x → M.waits l' x
  | .killed yes no => (M.exempt l ∨ M.Keeps l yes) ∧ M.Keeps l no
  | .sleepPrepare c l' => (M.holds l' ↔ M.holds l) ∧ M.armed l' = some c ∧
      (∀ x, M.assert l x → M.assert l' x) ∧ (M.owes l → M.owes l') ∧
      (c = M.chan → M.holds l ∧ ∀ x, M.assert l x → M.waits l' x)
  | .sleep l' => ¬M.holds l ∧ ¬M.holds l' ∧ M.armed l ≠ none ∧ M.armed l' = none ∧
      ∀ x, M.waits l x → M.waits l' x
  | .wakeup c l' => (M.holds l' ↔ M.holds l) ∧ M.armed l' = none ∧
      (∀ x, M.assert l x → M.assert l' x) ∧ (M.owes l → c = M.chan ∨ M.owes l')
  | .act f => ∀ x ch x' l', M.known l x → f x ch = .next x' l' → M.armed l' = none ∧
      (M.holds l' ↔ M.holds l) ∧
      (M.holds l → M.assert l x → M.assert l' x' ∧
        ∀ m, M.waits m x ∨ M.owes l → M.waits m x' ∨ M.owes l') ∧
      (¬M.holds l → (M.lockInv x → M.lockInv x') ∧ (∀ m, M.assert m x → M.assert m x') ∧
        ∀ m, M.waits m x → M.waits m x')

/-- The holder still has to wake the process in slot `t`. -/
def Owes (t : ℕ) : Ctl L → Prop
  | .pc l => M.owes l
  | .scan c k l => M.owes l ∨ (c = M.chan ∧ k ≤ t)

/-- Process `t` is asleep on the channel, or is going to sleep on it. -/
def Registered (s : Threads σ L) (t : ℕ) : Prop :=
  (s.proc t).chan = M.chan ∧
    ((s.proc t).state = .sleeping ∨ ∃ l, s.ctl t = .pc l ∧ M.armed l = some M.chan)

/-- What process `t` waits for has not come, or it is still going to be woken. -/
def Served (s : Threads σ L) (t : ℕ) : Prop :=
  M.waits (s.pcs t) s.sh ∨ ∃ h, s.lock = some h ∧ M.Owes t (s.ctl h)

/-- The invariant behind the waiting rule. -/
structure Inv (s : Threads σ L) : Prop where
  lock_iff : ∀ t, s.lock = some t ↔ M.holds (s.ctl t).pos
  free : s.lock = none → M.lockInv s.sh
  assert : ∀ t, s.lock = some t → M.assert (s.ctl t).pos s.sh
  chan : ∀ t l c, s.ctl t = .pc l → M.armed l = some c →
    (s.proc t).chan = c ∨ (s.proc t).chan = 0
  scan : ∀ t c k l, s.ctl t = .scan c k l → M.armed l = none
  wait : ∀ t, t < NPROC → M.Registered s t → M.Served s t

variable {M}

variable {s s' : Threads σ L} {t : ℕ} {a : ThreadStep C}

/-- **The waiting rule.**  When the spinlock is free, a process sleeping on the channel waits
out the monitor's condition. -/
theorem Inv.waits_of_sleeping (h : M.Inv s) (hfree : s.lock = none)
    (ht : t < NPROC) (hs : (s.proc t).state = .sleeping) (hc : (s.proc t).chan = M.chan) :
    M.waits (s.pcs t) s.sh := by
  rcases h.wait t ht ⟨hc, Or.inl hs⟩ with hw | ⟨u, hu, -⟩
  · exact hw
  · rw [hfree] at hu
    exact absurd hu (by simp)

lemma Registered.congr {u : ℕ} (hproc : s'.proc u = s.proc u)
    (hctl : s'.ctl u = s.ctl u) (h : M.Registered s' u) : M.Registered s u := by
  unfold Registered at *
  rwa [hproc, hctl] at h

/-- A change of process states that puts nobody to sleep and touches no channel. -/
lemma Inv.setProc (h : M.Inv s) (q : ℕ) (p : Proc)
    (hchan : p.chan = (s.proc q).chan) (hstate : p.state ≠ .sleeping) :
    M.Inv (s.setProc q p) := by
  have hch : ∀ t, ((s.setProc q p).proc t).chan = (s.proc t).chan := by
    intro t
    by_cases htq : t = q
    · subst htq
      simpa [Threads.setProc] using hchan
    · simp [Threads.setProc, htq]
  refine ⟨h.lock_iff, h.free, h.assert, fun t l c hl hc => ?_, h.scan, fun t ht hr => ?_⟩
  · rw [hch]
    exact h.chan t l c hl hc
  · refine h.wait t ht ⟨(hch t).symm.trans hr.1, ?_⟩
    rcases hr.2 with hs | hl
    · by_cases htq : t = q
      · subst htq
        simp [Threads.setProc, hstate] at hs
      · exact Or.inl (by simpa [Threads.setProc, htq] using hs)
    · exact Or.inr hl

/-- What a step of thread `t`, which goes to `x`, has to establish.  Of the others it may clear
channels and wake processes up, and it does not disturb another holder of the spinlock. -/
lemma Inv.of_thread (h : M.Inv s) {x : Ctl L} (hctl : s'.ctl = update s.ctl t x)
    (hlock : ∀ u ≠ t, s'.lock = some u ↔ s.lock = some u)
    (hholds : s'.lock = some t ↔ M.holds x.pos) (hfree : s'.lock = none → M.lockInv s'.sh)
    (hassert : s'.lock = some t → M.assert x.pos s'.sh) (hsh : ∀ u ≠ t, s.lock = some u →
      (∀ m, M.assert m s.sh → M.assert m s'.sh) ∧ ∀ m, M.waits m s.sh → M.waits m s'.sh)
    (hchan : ∀ u ≠ t, (s'.proc u).chan = (s.proc u).chan ∨ (s'.proc u).chan = 0)
    (harmed : ∀ c, M.armed x.pos = some c →
      x = .pc x.pos ∧ ((s'.proc t).chan = c ∨ (s'.proc t).chan = 0))
    (hself : t < NPROC → M.Registered s' t → M.Served s' t)
    (hreg : ∀ u ≠ t, M.Registered s' u → M.Registered s u)
    (howes : ∀ u < NPROC, u ≠ t → M.Registered s' u →
      M.waits (s.pcs u) s.sh ∨ (s.lock = some t ∧ M.Owes u (s.ctl t)) →
      (∀ v ≠ t, s.lock ≠ some v) →
      M.waits (s.pcs u) s'.sh ∨ (s'.lock = some t ∧ M.Owes u x)) :
    M.Inv s' := by
  have hx : s'.ctl t = x := by rw [hctl, update_self]
  have hctl : ∀ u ≠ t, s'.ctl u = s.ctl u := fun u hu => by rw [hctl, update_of_ne hu]
  refine ⟨fun u => ?_, hfree, fun u hu => ?_, fun u l c hl hc => ?_, fun u c k l hl => ?_,
    fun u hu hr => ?_⟩
  · by_cases hut : u = t
    · rw [hut, hx]
      exact hholds
    · rw [hlock u hut, hctl u hut]
      exact h.lock_iff u
  · by_cases hut : u = t
    · subst hut
      rw [hx]
      exact hassert hu
    · rw [hlock u hut] at hu
      rw [hctl u hut]
      exact (hsh u hut hu).1 _ (h.assert u hu)
  · by_cases hut : u = t
    · subst hut
      obtain rfl := hx.symm.trans hl
      exact (harmed c hc).2
    · rw [hctl u hut] at hl
      rcases hchan u hut with heq | hzero
      · rw [heq]
        exact h.chan u l c hl hc
      · exact Or.inr hzero
  · by_cases hut : u = t
    · subst hut
      obtain rfl := hx.symm.trans hl
      by_contra hne
      obtain ⟨c', hc'⟩ := ne_none_iff_exists'.mp hne
      cases (harmed c' hc').1
    · rw [hctl u hut] at hl
      exact h.scan u c k l hl
  · by_cases hut : u = t
    · subst hut
      exact hself hu hr
    have hpcs : s'.pcs u = s.pcs u := congrArg Ctl.pos (hctl u hut)
    have hr₀ := hreg u hut hr
    by_cases hv : ∃ v ≠ t, s.lock = some v
    · -- Another thread holds the spinlock: its debts are as before.
      obtain ⟨v, hvt, hv⟩ := hv
      rcases h.wait u hu hr₀ with hw | ⟨w, hw, howe⟩
      · exact Or.inl (hpcs ▸ (hsh v hvt hv).2 _ hw)
      · obtain rfl : v = w := some.inj (hv.symm.trans hw)
        exact Or.inr ⟨v, (hlock v hvt).mpr hv, by rwa [hctl v hvt]⟩
    · have hv : ∀ v ≠ t, s.lock ≠ some v := fun v hvt hv' => hv ⟨v, hvt, hv'⟩
      have hdebt : M.waits (s.pcs u) s.sh ∨ (s.lock = some t ∧ M.Owes u (s.ctl t)) := by
        rcases h.wait u hu hr₀ with hw | ⟨w, hw, howe⟩
        · exact Or.inl hw
        · obtain rfl : w = t := by
            by_contra hwt
            exact hv w hwt hw
          exact Or.inr ⟨hw, howe⟩
      rcases howes u hu hut hr hdebt hv with hw | ⟨hl, howe⟩
      · exact Or.inl (hpcs ▸ hw)
      · exact Or.inr ⟨t, hl, by rwa [hx]⟩

/-- A step that leaves the slots alone, to a position that is not between `sleep_prepare` and `sleep`. -/
lemma Inv.of_unarmed (h : M.Inv s) {x : Ctl L} (hrun : t < NPROC → (s.proc t).state = .running)
    (hctl : s'.ctl = update s.ctl t x) (hproc : s'.proc = s.proc) (harmed : M.armed x.pos = none)
    (hlock : ∀ u ≠ t, s'.lock = some u ↔ s.lock = some u)
    (hholds : s'.lock = some t ↔ M.holds x.pos) (hfree : s'.lock = none → M.lockInv s'.sh)
    (hassert : s'.lock = some t → M.assert x.pos s'.sh) (hsh : ∀ u ≠ t, s.lock = some u →
      (∀ m, M.assert m s.sh → M.assert m s'.sh) ∧ ∀ m, M.waits m s.sh → M.waits m s'.sh)
    (howes : ∀ u < NPROC, M.waits (s.pcs u) s.sh ∨ (s.lock = some t ∧ M.Owes u (s.ctl t)) →
      M.waits (s.pcs u) s'.sh ∨ (s'.lock = some t ∧ M.Owes u x)) : M.Inv s' := by
  refine h.of_thread hctl hlock hholds hfree hassert hsh (fun u _ => by simp [hproc]) ?_ ?_ ?_
    fun u hu _ _ hdebt _ => howes u hu hdebt
  · intro c hc
    rw [harmed] at hc
    cases hc
  · -- A running thread is registered only between `sleep_prepare` and `sleep`.
    rintro ht ⟨-, hs | ⟨l, hl, ha⟩⟩
    · rw [hproc, hrun ht] at hs
      cases hs
    · rw [hctl, update_self] at hl
      rw [hl] at harmed
      cases harmed.symm.trans ha
  · exact fun u hut => Registered.congr (congrFun hproc u) (by rw [hctl, update_of_ne hut])

/-- Thread `t` moves to `x` without a change of data, spinlock or slots. -/
lemma Inv.goto (h : M.Inv s) {x : Ctl L} (hrun : t < NPROC → (s.proc t).state = .running)
    (hholds : M.holds x.pos ↔ M.holds (s.ctl t).pos)
    (hassert : M.assert (s.ctl t).pos s.sh → M.assert x.pos s.sh) (harmed : M.armed x.pos = none)
    (howes : ∀ u < NPROC, M.Owes u (s.ctl t) → M.Owes u x) :
    M.Inv (s.goto t x) :=
  h.of_unarmed hrun rfl rfl harmed (fun _ _ => Iff.rfl) ((h.lock_iff t).trans hholds.symm) h.free
    (fun hl => hassert (h.assert t hl)) (fun _ _ _ => ⟨fun _ => id, fun _ => id⟩)
    fun u hu hdebt => hdebt.imp id fun ho => ⟨ho.1, howes u hu ho.2⟩

/-! ## The instructions keep the invariant -/

section Instructions

variable {s s' : Threads σ L} {t : ℕ} {l : L} {ch : C}

variable {l' : L} {c k : ℕ}

section

variable (h : M.Inv s)
include h

section

variable (hrun : t < NPROC → (s.proc t).state = .running)
include hrun

lemma Inv.acquire (hok : M.Ok l (.acquire l' : Instr σ L C)) (hfree : s.lock = none) :
    M.Inv ({ s with lock := some t }.goto t (.pc l')) := by
  obtain ⟨-, hl', hassert, harmed⟩ := hok
  refine h.of_unarmed hrun rfl rfl harmed ?_ (iff_of_true rfl hl') (fun hn => by cases hn)
    (fun _ => hassert _ (h.free hfree)) ?_ ?_
  · intro u hu
    simp [Threads.goto, hfree, Ne.symm hu]
  · intro u _ hu
    rw [hfree] at hu
    cases hu
  · rintro u - (hw | ⟨hl, -⟩)
    · exact Or.inl hw
    · rw [hfree] at hl
      cases hl

lemma Inv.release
    (hpc : s.ctl t = .pc l) (hok : M.Ok l (.release l' : Instr σ L C)) (hlock : s.lock = some t) :
    M.Inv ({ s with lock := none }.goto t (.pc l')) := by
  obtain ⟨-, hl', hinv, howes, harmed, hwaits⟩ := hok
  set s' := ({ s with lock := none } : Threads σ L).goto t (.pc l') with hs'
  have hself : s'.ctl t = .pc l' := update_self ..
  have hknow : M.assert l s.sh := by simpa [hpc] using h.assert t hlock
  refine h.of_thread (x := .pc l') rfl ?_ (iff_of_false nofun hl') (fun _ => hinv _ hknow)
    (fun hl => by cases hl) (fun _ _ _ => ⟨fun _ => id, fun _ => id⟩) (fun _ _ => Or.inl rfl)
    ?_ ?_ (fun u hut => Registered.congr rfl (update_of_ne hut ..)) ?_
  · intro u hu
    simp [hs', Threads.goto, hlock, Ne.symm hu]
  · intro c hc
    exact ⟨rfl, h.chan t l c hpc (harmed.symm.trans hc)⟩
  · -- The thread itself has registered, and owes itself nothing.
    rintro ht ⟨hc, hs | ⟨m, hm, ha⟩⟩
    · exact absurd ((hrun ht).symm.trans hs) (by simp)
    · rw [hself] at hm
      cases hm
      rw [harmed] at ha
      rcases h.wait t ht ⟨hc, Or.inr ⟨l, hpc, ha⟩⟩ with hw | ⟨v, hv, ho⟩
      · rw [Threads.pcs, hpc] at hw
        refine Or.inl ?_
        rw [Threads.pcs, hself]
        exact hwaits _ (by rw [ha]; simp) hw
      · obtain rfl : t = v := some.inj (hlock.symm.trans hv)
        rw [hpc] at ho
        exact absurd ho howes
  · rintro u - - - (hw | ⟨-, ho⟩) -
    · exact Or.inl hw
    · rw [hpc] at ho
      exact absurd ho howes

/-- A thread goes on without any other change. -/
lemma Inv.keeps (hpc : s.ctl t = .pc l) (hk : M.Keeps l l') : M.Inv (s.goto t (.pc l')) := by
  obtain ⟨hholds, harmed, hassert, howes⟩ := hk
  refine h.goto hrun (by rw [hpc]; exact hholds) (by rw [hpc]; exact hassert _) harmed ?_
  intro u _ ho
  rw [hpc] at ho
  exact howes ho

lemma Inv.killed {yes no : L} (hpc : s.ctl t = .pc l) (hok : M.Ok l (.killed yes no : Instr σ L C))
    (hex : M.exempt l → (s.proc t).killed = false) :
    M.Inv (s.goto t (.pc (if (s.proc t).killed then yes else no))) := by
  obtain ⟨hyes, hno⟩ := hok
  by_cases hk : (s.proc t).killed = true
  · rw [if_pos hk]
    rcases hyes with hx | hyes
    · exact absurd (hex hx) (by simp [hk])
    · exact h.keeps hrun hpc hyes
  · rw [if_neg hk]
    exact h.keeps hrun hpc hno

lemma Inv.wakeup (hpc : s.ctl t = .pc l) (hok : M.Ok l (.wakeup c l' : Instr σ L C)) :
    M.Inv (s.goto t (.scan c 0 l')) := by
  obtain ⟨hholds, harmed, hassert, howes⟩ := hok
  refine h.goto hrun (by rw [hpc]; exact hholds) (by rw [hpc]; exact hassert _) harmed ?_
  intro u _ ho
  rw [hpc] at ho
  rcases howes ho with hc | ho
  · exact Or.inr ⟨hc, Nat.zero_le u⟩
  · exact Or.inl ho

/-- The scan of a `wakeup` is over. -/
lemma Inv.scanEnd (hpc : s.ctl t = .scan c k l) (hk : ¬k < NPROC) : M.Inv (s.goto t (.pc l)) := by
  refine h.goto hrun (by rw [hpc]; rfl) (by rw [hpc]; exact id) (h.scan t c k l hpc) ?_
  intro u hu ho
  rw [hpc] at ho
  rcases ho with ho | ⟨-, hku⟩
  · exact ho
  · omega

end

lemma Inv.sleepPrepare (hpc : s.ctl t = .pc l) (hok : M.Ok l (.sleepPrepare c l' : Instr σ L C)) :
    M.Inv ((s.setProc t ((s.proc t).sleepPrepare c)).goto t (.pc l')) := by
  obtain ⟨hholds, harmed, hassert, howes, hwaits⟩ := hok
  set s' := (s.setProc t ((s.proc t).sleepPrepare c)).goto t (.pc l') with hs'
  have hproc : ∀ u ≠ t, s'.proc u = s.proc u := fun u hu => update_of_ne hu ..
  have hprocSelf : s'.proc t = (s.proc t).sleepPrepare c := update_self ..
  have hlock : s.lock = some t ↔ M.holds l := by simpa [hpc] using h.lock_iff t
  have hknow : s.lock = some t → M.assert l s.sh := fun hl => by simpa [hpc] using h.assert t hl
  refine h.of_thread (x := .pc l') rfl (fun _ _ => Iff.rfl) (hlock.trans hholds.symm) h.free
    (fun hl => hassert _ (hknow hl)) (fun _ _ _ => ⟨fun _ => id, fun _ => id⟩)
    (fun u hu => by rw [hproc u hu]; exact Or.inl rfl) ?_ ?_
    (fun u hut => Registered.congr (hproc u hut) (update_of_ne hut ..)) ?_
  · intro c' hc
    rw [hprocSelf, ← some.inj (harmed.symm.trans hc)]
    exact ⟨rfl, Or.inl rfl⟩
  · -- The registration is made where the condition holds.
    rintro - ⟨hc, -⟩
    rw [hprocSelf] at hc
    obtain ⟨hl, hw⟩ := hwaits hc
    refine Or.inl ?_
    rw [Threads.pcs, show s'.ctl t = .pc l' from update_self ..]
    exact hw _ (hknow (hlock.mpr hl))
  · rintro u - - - (hw | ⟨hl, ho⟩) -
    · exact Or.inl hw
    · rw [hpc] at ho
      exact Or.inr ⟨hl, howes ho⟩

lemma Inv.sleep (hchan : M.chan ≠ 0)
    (hpc : s.ctl t = .pc l) (hok : M.Ok l (.sleep l' : Instr σ L C)) :
    M.Inv ((s.setProc t (s.proc t).sleep).goto t (.pc l')) := by
  obtain ⟨hl, hl', harmed, harmed', hwaits⟩ := hok
  set s' := (s.setProc t (s.proc t).sleep).goto t (.pc l') with hs'
  have hctl : ∀ u ≠ t, s'.ctl u = s.ctl u := fun u hu => update_of_ne hu ..
  have hproc : ∀ u ≠ t, s'.proc u = s.proc u := fun u hu => update_of_ne hu ..
  have hprocSelf : s'.proc t = (s.proc t).sleep := update_self ..
  have hlock : s.lock ≠ some t := fun heq => hl (by simpa [hpc] using (h.lock_iff t).mp heq)
  refine h.of_thread (x := .pc l') rfl (fun _ _ => Iff.rfl) (iff_of_false hlock hl') h.free
    (fun hl => absurd hl hlock) (fun _ _ _ => ⟨fun _ => id, fun _ => id⟩)
    (fun u hu => by rw [hproc u hu]; exact Or.inl rfl)
    (fun c hc => by cases harmed'.symm.trans hc) ?_
    (fun u hut => Registered.congr (hproc u hut) (hctl u hut)) ?_
  · -- A process that goes to sleep on the channel was registered on it already.
    rintro ht ⟨hc, -⟩
    rw [hprocSelf, Proc.sleep_chan] at hc
    obtain ⟨c, ha⟩ := ne_none_iff_exists'.mp harmed
    have hr : M.Registered s t := by
      rcases h.chan t l c hpc ha with heq | hzero
      · exact ⟨hc, Or.inr ⟨l, hpc, by rw [ha, ← heq, hc]⟩⟩
      · exact absurd (hc.symm.trans hzero) hchan
    rcases h.wait t ht hr with hw | ⟨v, hv, ho⟩
    · rw [Threads.pcs, hpc] at hw
      refine Or.inl ?_
      rw [Threads.pcs, show s'.ctl t = .pc l' from update_self ..]
      exact hwaits _ hw
    · have hvt : v ≠ t := by
        rintro rfl
        exact hlock hv
      exact Or.inr ⟨v, hv, by rwa [hctl v hvt]⟩
  · rintro u - - - (hw | ⟨hl, -⟩) -
    · exact Or.inl hw
    · exact absurd hl hlock

/-- One iteration of a `wakeup` loop. -/
lemma Inv.scanStep (hchan : M.chan ≠ 0)
    (hrun : t < NPROC → (s.proc t).state = .running) (hpc : s.ctl t = .scan c k l) :
    M.Inv ((s.setProc k ((s.proc k).wakeup c)).goto t (.scan c (k + 1) l)) := by
  set s' := (s.setProc k ((s.proc k).wakeup c)).goto t (.scan c (k + 1) l) with hs'
  have hproc : ∀ u ≠ k, s'.proc u = s.proc u := fun u hu => update_of_ne hu ..
  have hprocSelf : s'.proc k = (s.proc k).wakeup c := update_self ..
  have hlock : s.lock = some t ↔ M.holds l := by simpa [hpc] using h.lock_iff t
  have hch : ∀ u, (s'.proc u).chan = (s.proc u).chan ∨ (s'.proc u).chan = 0 := by
    intro u
    by_cases huk : u = k
    · rw [huk, hprocSelf]
      exact Proc.wakeup_chan_eq_or
    · rw [hproc u huk]
      exact Or.inl rfl
  have hsleep : ∀ u, (s'.proc u).state = .sleeping → (s.proc u).state = .sleeping := by
    intro u hs
    by_cases huk : u = k
    · subst huk
      rw [hprocSelf] at hs
      exact (Proc.wakeup_sleeping hs).1
    · rwa [hproc u huk] at hs
  refine h.of_thread (x := .scan c (k + 1) l) rfl (fun _ _ => Iff.rfl) hlock h.free
    (fun hl => show M.assert l s.sh by simpa [hpc] using h.assert t hl)
    (fun _ _ _ => ⟨fun _ => id, fun _ => id⟩) (fun u _ => hch u)
    (fun c' hc => by cases (h.scan t c k l hpc).symm.trans hc) ?_ ?_ ?_
  · rintro ht ⟨-, hs | ⟨m, hm, -⟩⟩
    · exact absurd ((hrun ht).symm.trans (hsleep t hs)) (by simp)
    · cases (show s'.ctl t = .scan c (k + 1) l from update_self ..).symm.trans hm
  · rintro u hut ⟨hc, hr⟩
    have hc₀ : (s.proc u).chan = M.chan := by
      rcases hch u with heq | hzero
      · exact heq.symm.trans hc
      · exact absurd (hc.symm.trans hzero) hchan
    rw [show s'.ctl u = s.ctl u from update_of_ne hut ..] at hr
    exact ⟨hc₀, hr.imp (hsleep u) id⟩
  · rintro u - - hr (hw | ⟨hl, ho⟩) -
    · exact Or.inl hw
    · rw [hpc] at ho
      refine Or.inr ⟨hl, ?_⟩
      rcases ho with ho | ⟨hc, hku⟩
      · exact Or.inl ho
      · -- The slot just visited is not registered any more.
        have huk : u ≠ k := by
          rintro rfl
          have hne : ((s.proc u).wakeup c).chan ≠ c := Proc.wakeup_chan_ne (hc ▸ hchan)
          rw [← hprocSelf, hc] at hne
          exact hne hr.1
        exact Or.inr ⟨hc, by omega⟩

lemma Inv.act {f : σ → C → Outcome σ L} {x : σ}
    (hrun : t < NPROC → (s.proc t).state = .running) (hknown : M.known l s.sh)
    (hpc : s.ctl t = .pc l) (hok : M.Ok l (.act f)) (hf : f s.sh ch = .next x l') :
    M.Inv ({ s with sh := x }.goto t (.pc l')) := by
  obtain ⟨harmed, hholds, hin, hout⟩ := hok s.sh ch x l' hknown hf
  have hlock : s.lock = some t ↔ M.holds l := by simpa [hpc] using h.lock_iff t
  have hstep : M.holds l → M.assert l' x ∧ ∀ m, M.waits m s.sh ∨ M.owes l → M.waits m x ∨ M.owes l' :=
    fun hl => hin hl (by simpa [hpc] using h.assert t (hlock.mpr hl))
  -- Without the spinlock the action does not disturb anybody.
  have hframe : s.lock ≠ some t → (M.lockInv s.sh → M.lockInv x) ∧
      (∀ m, M.assert m s.sh → M.assert m x) ∧ ∀ m, M.waits m s.sh → M.waits m x :=
    fun hl => hout (mt hlock.mpr hl)
  refine h.of_unarmed hrun rfl rfl harmed (fun _ _ => Iff.rfl) (hlock.trans hholds.symm) ?_
    (fun hl => (hstep (hlock.mp hl)).1) ?_ ?_
  · intro hn
    have hn : s.lock = none := hn
    exact (hframe (by simp [hn])).1 (h.free hn)
  · intro u hu hl
    exact (hframe (by rw [hl]; exact fun heq => hu (some.inj heq))).2
  · intro u _ hdebt
    by_cases hl : s.lock = some t
    · have howes : M.waits (s.pcs u) s.sh ∨ M.owes l := by
        rcases hdebt with hw | ⟨-, ho⟩
        · exact Or.inl hw
        · rw [hpc] at ho
          exact Or.inr ho
      rcases (hstep (hlock.mp hl)).2 _ howes with hw | ho
      · exact Or.inl hw
      · exact Or.inr ⟨hl, ho⟩
    · rcases hdebt with hw | ⟨hl', -⟩
      · exact Or.inl ((hframe hl).2.2 _ hw)
      · exact absurd hl' hl

end

end Instructions

/-! ## The rule -/

/-- A step that takes no exempt `killed` test of a killed process. -/
def StepOk (M : Monitor σ L) (s : Threads σ L) (a : ThreadStep C) : Prop :=
  ∀ t ch l, a = .run t ch → s.ctl t = .pc l → M.exempt l → (s.proc t).killed = false

/-- The step lemma of the waiting rule, in a system of `n` threads. -/
theorem Inv.stepOn {n : ℕ} {code : L → Instr σ L C}
    (hok : ∀ l, M.Ok l (code l)) (hchan : M.chan ≠ 0) (h : M.Inv s)
    (hknown : ∀ t, M.known (s.pcs t) s.sh) (ha : M.StepOk s a)
    (hn : NPROC ≤ n) (hs : Threads.stepOn n code s a = some s') : M.Inv s' := by
  have hpanic : ∀ msg, M.Inv { s with panicked := some msg } :=
    fun _ => ⟨h.lock_iff, h.free, h.assert, h.chan, h.scan, h.wait⟩
  obtain ⟨-, hacts⟩ := Threads.acts_of_stepOn hs hn
  cases hacts with
  | kkill t => exact h.setProc t _ rfl Proc.kkill_state_ne_sleeping
  | yield t => exact h.setProc t _ rfl (by simp [Proc.yield])
  | schedule t => exact h.setProc t _ rfl (by simp [Proc.schedule])
  | scan t ch c k l ht hrun hpc => exact h.scanStep hchan hrun hpc
  | scanEnd t ch c k l ht hrun hpc hk => exact h.scanEnd hrun hpc hk
  | acquire t ch l l' ht hrun hpc hi hfree => exact h.acquire hrun (hi ▸ hok l) hfree
  | release t ch l l' ht hrun hpc hi hlock => exact h.release hrun hpc (hi ▸ hok l) hlock
  | killed t ch l yes no ht hrun hpc hi =>
    exact h.killed hrun hpc (hi ▸ hok l) fun hx => ha t ch l rfl hpc hx
  | sleepPrepare t ch l c l' ht hrun hpc hi => exact h.sleepPrepare hpc (hi ▸ hok l)
  | sleep t ch l l' ht hrun hpc hi => exact h.sleep hchan hpc (hi ▸ hok l)
  | wakeup t ch l c l' ht hrun hpc hi => exact h.wakeup hrun hpc (hi ▸ hok l)
  | act t ch l f x l' ht hrun hpc hi hf =>
    exact h.act hrun (by simpa [Threads.pcs, hpc] using hknown t) hpc (hi ▸ hok l) hf
  | badRelease | zeroChan | panic => exact hpanic _

/-- The step lemma of the waiting rule. -/
theorem Inv.step {code : L → Instr σ L C}
    (hok : ∀ l, M.Ok l (code l)) (hchan : M.chan ≠ 0) (h : M.Inv s)
    (hknown : ∀ t, M.known (s.pcs t) s.sh) (ha : M.StepOk s a)
    (hs : Threads.step code s a = some s') : M.Inv s' :=
  h.stepOn hok hchan hknown ha (Nat.le_refl _) (Threads.step_eq_stepOn code s a ▸ hs)

end Monitor
end Xv6
