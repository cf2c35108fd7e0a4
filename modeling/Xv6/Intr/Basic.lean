import Xv6.Proc.Slot
import Xv6.Lib.Run

/-!
# Interrupts and context switches

`push_off`, `pop_off`, `acquire` and `release` of `kernel/spinlock.c`, and `scheduler`, `sched`,
`yield` and `sleep` of `kernel/proc.c`, with the interrupt-enable bit, `noff` and `intena` of each
CPU.  Any number of CPUs run the kernel threads of the processes and one scheduler thread each.
Outside the functions above a thread may at any time enter or leave a section or call `yield` or
`sleep`, so that the runs are those of all programs; an interrupt may strike wherever it is enabled,
and its handler is such code, too.  Processes are neither created nor freed here.

A step is what one CPU does between two points at which another CPU or an interrupt could tell the
difference: `push_off` and `pop_off` are one step each, since the data they use belongs to the CPU and
interrupts are off in between.

`pushed` is a history variable: for each call of `push_off` that a thread has not matched by
`pop_off`, innermost first, whether interrupts were enabled before it.  A thread that has not run yet
starts in `forkret` and inherits the call that the scheduler made for its `p->lock`.
-/

namespace Xv6.Intr

open Function

/-- `struct cpu` and the interrupt-enable bit of its CPU. -/
structure Hart where
  noff : ℕ  -- depth of `push_off` nesting
  intena : Bool  -- were interrupts enabled before `push_off`?
  sie : Bool  -- `SSTATUS_SIE`
  proc : Option ℕ  -- `c->proc`
  deriving DecidableEq

namespace Hart

/-- `push_off`. -/
def pushOff (h : Hart) : Hart :=
  { h with sie := false, intena := if h.noff = 0 then h.sie else h.intena, noff := h.noff + 1 }

/-- `pop_off`. -/
def popOff (h : Hart) : Except String Hart :=
  if h.sie then .error "pop_off - interruptible"
  else if h.noff < 1 then .error "pop_off"
  else .ok { h with
    noff := h.noff - 1, sie := if h.noff - 1 = 0 ∧ h.intena then true else h.sie }

/-- `myproc`, whose result is `c->proc`. -/
def myproc (h : Hart) : Except String Hart := h.pushOff.popOff

end Hart

/-- A kernel thread: that of a process, or the scheduler of a CPU. -/
inductive Thread
  | proc (t : ℕ)
  | sched (c : ℕ)
  deriving DecidableEq

/-- A spinlock. -/
inductive Spinlock
  | proc (t : ℕ)  -- `proc[t].lock`
  | other (k : ℕ)
  deriving DecidableEq

/-- The functions that give up the CPU. -/
inductive Fn
  | yield
  | sleep
  deriving DecidableEq

/-- Where a thread is in `yield` or `sleep`, which differ only in what they do with the lock held. -/
inductive Stage
  | enter  -- at `myproc`
  | acquire (p : ℕ)  -- at `acquire(&p->lock)`
  | spin (p : ℕ)  -- in `acquire`, after `push_off`
  | locked (p : ℕ)  -- after `acquire`
  | sched (p : ℕ)  -- at `sched`
  | back (p : ℕ) (intena : Bool)  -- in `sched`, after `swtch`
  | unlock (p : ℕ)  -- at `release(&p->lock)`
  | pop  -- in `release`, at `pop_off`
  | leave
  deriving DecidableEq

/-- Where a thread is. -/
inductive Pos
  | code  -- code that is not part of this model
  | handler (ret : Pos)  -- such code in `kerneltrap`, which has interrupted `ret`
  | spin (k : Spinlock) (ret : Pos)  -- in an `acquire` of such code, after `push_off`
  | pop (ret : Pos)  -- in a `release` of such code, at `pop_off`
  | call (f : Fn) (st : Stage) (sie : Bool) (ret : Pos)  -- `sie` is a history variable
  | forkret  -- at `release`
  | forkretPop
  -- `scheduler`
  | intrOn
  | intrOff
  | scan (k : ℕ) (found : Bool)
  | spinProc (k : ℕ) (found : Bool)
  | test (k : ℕ) (found : Bool)
  | swtch (k : ℕ) (found : Bool)
  | resumed (k : ℕ) (found : Bool)  -- after `swtch`
  | unlock (k : ℕ) (found : Bool)
  | popProc (k : ℕ) (found : Bool)
  deriving DecidableEq

/-- The position is in code outside the functions. -/
def Pos.atCode : Pos → Bool
  | .code | .handler _ => true
  | _ => false

/-- What code does to the slot of a process whose lock it holds. -/
inductive Store
  | prepare (chan : ℕ)  -- in `sleep_prepare`
  | wakeup (chan : ℕ)
  | kkill

def Store.apply : Store → Proc → Proc
  | .prepare chan, p => p.sleepPrepare chan
  | .wakeup chan, p => p.wakeup chan
  | .kkill, p => p.kkill

/-- What code does next. -/
inductive Op
  | pushOff
  | popOff
  | acquire (k : Spinlock)
  | release (k : Spinlock)
  | call (f : Fn)
  | store (t : ℕ) (u : Store)
  | intrOn
  | intrOff

/-- What happens on a CPU. -/
inductive Act
  | go  -- the next step of one of the functions
  | op (o : Op)
  | interrupt

/-- The system. -/
structure Sys where
  hart : ℕ → Hart
  cur : ℕ → Thread  -- the thread on whose stack a CPU runs
  pos : Thread → Pos
  lock : Spinlock → Option ℕ  -- the CPU that holds a lock
  proc : ℕ → Proc
  pushed : Thread → List Bool
  panicked : Option String

namespace Sys

def setHart (s : Sys) (c : ℕ) (h : Hart) : Sys := { s with hart := update s.hart c h }

def setCur (s : Sys) (c : ℕ) (x : Thread) : Sys := { s with cur := update s.cur c x }

def setPos (s : Sys) (x : Thread) (q : Pos) : Sys := { s with pos := update s.pos x q }

def setLock (s : Sys) (k : Spinlock) (o : Option ℕ) : Sys :=
  { s with lock := update s.lock k o }

def setProc (s : Sys) (t : ℕ) (p : Proc) : Sys := { s with proc := update s.proc t p }

def setPushed (s : Sys) (x : Thread) (l : List Bool) : Sys :=
  { s with pushed := update s.pushed x l }

def panic (s : Sys) (msg : String) : Sys := { s with panicked := some msg }

/-- `push_off`, by thread `x` on CPU `c`. -/
def pushOff (s : Sys) (c : ℕ) (x : Thread) (next : Pos) : Sys :=
  ((s.setHart c (s.hart c).pushOff).setPushed x ((s.hart c).sie :: s.pushed x)).setPos x next

/-- `pop_off`. -/
def popOff (s : Sys) (c : ℕ) (x : Thread) (next : Pos) : Sys :=
  match (s.hart c).popOff with
  | .error msg => s.panic msg
  | .ok h => ((s.setHart c h).setPushed x (s.pushed x).tail).setPos x next

/-- `acquire`, after `push_off`. -/
def spin (s : Sys) (c : ℕ) (x : Thread) (k : Spinlock) (next : Pos) : Option Sys :=
  match s.lock k with
  | none => some ((s.setLock k (some c)).setPos x next)
  | some c' => if c' = c then some (s.panic "acquire") else none

/-- `release`, up to `pop_off`. -/
def unlock (s : Sys) (c : ℕ) (x : Thread) (k : Spinlock) (next : Pos) : Sys :=
  if s.lock k = some c then (s.setLock k none).setPos x next else s.panic "release"

/-- `p = myproc()` and what follows; a null `p` would be dereferenced. -/
def withProc (s : Sys) (c : ℕ) (next : Hart → ℕ → Option Sys) : Option Sys :=
  match (s.hart c).myproc with
  | .error msg => some (s.panic msg)
  | .ok h => (s.hart c).proc.bind (next h)

/-- `sched`, up to `swtch`; `next` is where the thread goes on with its `intena`. -/
def sched (s : Sys) (c : ℕ) (next : Bool → Pos) : Option Sys :=
  s.withProc c fun h p =>
    if s.lock (.proc p) ≠ some c then some (s.panic "sched p->lock")
    else if h.noff ≠ 1 then some (s.panic "sched locks")
    else if (s.proc p).state = .running then some (s.panic "sched RUNNING")
    else if h.sie then some (s.panic "sched interruptible")
    else some (((s.setHart c h).setPos (.proc p) (next h.intena)).setCur c (.sched c))

/-- `yield` and `sleep`. -/
def call (s : Sys) (c : ℕ) (x : Thread) (f : Fn) (st : Stage) (sie : Bool) (ret : Pos) :
    Option Sys :=
  match st with
  | .enter =>
    s.withProc c fun h p => some ((s.setHart c h).setPos x (.call f (.acquire p) sie ret))
  | .acquire p => some (s.pushOff c x (.call f (.spin p) sie ret))
  | .spin p => s.spin c x (.proc p) (.call f (.locked p) sie ret)
  | .locked p =>
    match f with
    | .yield => some ((s.setProc p (s.proc p).yield).setPos x (.call f (.sched p) sie ret))
    | .sleep =>
      if (s.proc p).chan ≠ 0 then
        some ((s.setProc p (s.proc p).sleep).setPos x (.call f (.sched p) sie ret))
      else some (s.setPos x (.call f (.unlock p) sie ret))
  | .sched p => s.sched c fun intena => .call f (.back p intena) sie ret
  | .back p intena =>
    some ((s.setHart c { s.hart c with intena := intena }).setPos x (.call f (.unlock p) sie ret))
  | .unlock p => some (s.unlock c x (.proc p) (.call f .pop sie ret))
  | .pop => some (s.popOff c x (.call f .leave sie ret))
  | .leave => some (s.setPos x ret)

/-- The next step of thread `x` on CPU `c`, which is within one of the functions. -/
def go (s : Sys) (c : ℕ) (x : Thread) : Option Sys :=
  let h := s.hart c
  match s.pos x with
  | .code => none
  | .handler ret =>
    -- `w_sstatus(sstatus)` and `sret`
    if h.noff = 0 then some ((s.setHart c { h with sie := true }).setPos x ret) else none
  | .spin k ret => s.spin c x k ret
  | .pop ret => some (s.popOff c x ret)
  | .call f st sie ret => s.call c x f st sie ret
  | .forkret =>
    s.withProc c fun h p => some ((s.setHart c h).unlock c x (.proc p) .forkretPop)
  | .forkretPop => some (s.popOff c x .code)
  | .intrOn => some ((s.setHart c { h with sie := true }).setPos x .intrOff)
  | .intrOff => some ((s.setHart c { h with sie := false }).setPos x (.scan 0 false))
  | .scan k found =>
    if k < NPROC then some (s.pushOff c x (.spinProc k found))
    else some (s.setPos x .intrOn)  -- after `wfi`, if nothing was found
  | .spinProc k found => s.spin c x (.proc k) (.test k found)
  | .test k found =>
    if (s.proc k).state = .runnable then
      some (((s.setProc k (s.proc k).schedule).setHart c { h with proc := some k }).setPos x
        (.swtch k found))
    else some (s.setPos x (.unlock k found))
  | .swtch k found => some ((s.setPos x (.resumed k found)).setCur c (.proc k))
  | .resumed k _ =>
    some ((s.setHart c { h with intena := false, proc := none }).setPos x (.unlock k true))
  | .unlock k found => some (s.unlock c x (.proc k) (.popProc k found))
  | .popProc k found => some (s.popOff c x (.scan (k + 1) found))

/-- What code at `q` does.  From a handler only `kerneltrap` calls `yield`, if there is a process. -/
def op (s : Sys) (c : ℕ) (x : Thread) (q : Pos) : Op → Option Sys
  | .pushOff => some (s.pushOff c x q)
  | .popOff => some (s.popOff c x q)
  | .acquire k => some (s.pushOff c x (.spin k q))
  | .release k => some (s.unlock c x k (.pop q))
  | .call f =>
    if q = .code ∨ f = .yield ∧ (s.hart c).proc ≠ none then
      some (s.setPos x (.call f .enter (s.hart c).sie q))
    else none
  | .store t u =>
    if s.lock (.proc t) = some c then some (s.setProc t (u.apply (s.proc t))) else none
  | .intrOn =>
    if q = .code ∧ (s.hart c).noff = 0 then some (s.setHart c { s.hart c with sie := true })
    else none
  | .intrOff =>
    if q = .code ∧ (s.hart c).noff = 0 then some (s.setHart c { s.hart c with sie := false })
    else none

/-- One step of CPU `c` of a system with `n` CPUs. -/
def step (n : ℕ) (s : Sys) (a : ℕ × Act) : Option Sys :=
  let c := a.1
  let x := s.cur c
  if s.panicked = none ∧ c < n then
    match a.2 with
    | .go => s.go c x
    | .op o => if (s.pos x).atCode then s.op c x (s.pos x) o else none
    | .interrupt =>
      if (s.hart c).sie then
        some ((s.setHart c { s.hart c with sie := false }).setPos x (.handler (s.pos x)))
      else none
  else none

/-- Every CPU is about to run its scheduler, and no thread has run yet. -/
def boot (p : ℕ → Proc) : Sys where
  hart _ := { noff := 0, intena := false, sie := false, proc := none }
  cur c := .sched c
  pos
    | .sched _ => .intrOn
    | .proc _ => .forkret
  lock _ := none
  proc := p
  pushed
    | .sched _ => []
    | .proc _ => [false]
  panicked := none

end Sys

end Xv6.Intr
