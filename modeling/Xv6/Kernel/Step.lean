import Xv6.Kernel.Exec
import Xv6.Lib.Run

/-!
# Runs of the kernel

A run is a sequence of operations, each by a process that is running and with any arguments.  Between
two operations nothing of the first one is left undone.  An operation of a process that is not
running does nothing.
-/

namespace Xv6

inductive KernelOp
  | userinit (root : ℕ)
  | schedule (p : ℕ)
  | yield (p : ℕ)
  | sleep (p c : ℕ)
  | wakeup (c : ℕ)
  | forkret (p : ℕ) (file : Option ExecFile)
  | fork (p : ℕ)
  | exec (p path uargv : ℕ) (file : Option ExecFile)
  | exit (p : ℕ) (status : ℤ)
  | wait (p addr : ℕ)
  | kill (p : ℕ) (pid : ℤ)
  | sbrk (p : ℕ) (n t : ℤ)
  | fault (p va : ℕ)
  | pipe (p fdarray : ℕ)
  | open (p : ℕ) (found : Option Kernel.Found) (omode : BitVec 32)
  | dup (p : ℕ) (fd : ℤ)
  | close (p : ℕ) (fd : ℤ)
  | copyout (p dstva : ℕ) (src : Bytes) (len : ℕ)
  | copyin (p : ℕ) (dst : Bytes) (srcva len : ℕ)
  | copyinstr (p : ℕ) (dst : Bytes) (srcva max : ℕ)

namespace Kernel

variable [Layout]

/-- Something that a running process does in the kernel. -/
def running (p : ℕ) (x : KernelM Unit) : KernelM Unit := do
  if p < NPROC ∧ ((← get).proc p).state = .running then x

/-- `syscall`: a call of a running process, with the result in `a0`. -/
def syscall (p : ℕ) (x : KernelM ℤ) : KernelM Unit := running p do
  let r ← x
  setTrapframe p 112 (BitVec.ofInt 64 r)

/-- What an operation does. -/
def exec : KernelOp → KernelM Unit
  | .userinit root => do if (← get).initproc.isNone then userinit root
  | .schedule p => do
    if p < NPROC ∧ ((← get).proc p).state = .runnable then setProc p Proc.schedule
  | .yield p => running p (setProc p Proc.yield)
  | .sleep p c => running p do
    if c = 0 then throw "sleep_prepare: zero chan"
    setProc p (Proc.sleepPrepare c)
    setProc p Proc.sleep
  | .wakeup c => wakeup c
  | .forkret p file => running p (forkret p file)
  | .fork p => syscall p (kfork p)
  | .exec p path uargv file => syscall p (sysExec p path uargv file)
  | .exit p status => running p (kexit p status)
  | .wait p addr => running p do
    match ← kwait p addr with
    | none => return
    | some r => setTrapframe p 112 (BitVec.ofInt 64 r)
  | .kill p pid => syscall p (kkill pid)
  | .sbrk p n t => syscall p (sysSbrk p n t)
  | .fault p va => running p (usertrapFault p va)
  | .pipe p fdarray => syscall p (sysPipe p fdarray)
  | .open p found omode => syscall p (sysOpen p found omode)
  | .dup p fd => syscall p (sysDup p fd)
  | .close p fd => syscall p (sysClose p fd)
  | .copyout p dstva src len => running p do
    let q := (← get).proc p
    let _ ← onMem (copyout q.pagetable q.sz dstva src len)
  | .copyin p dst srcva len => running p do
    let q := (← get).proc p
    let _ ← onMem (copyin q.pagetable q.sz dst srcva len)
  | .copyinstr p dst srcva max => running p do
    let q := (← get).proc p
    let _ ← onMem (copyinstr q.pagetable q.sz dst srcva max)

/-- A step of a run; there is none if the operation panics. -/
def step (k : Kernel) (op : KernelOp) : Option Kernel :=
  match exec op k with
  | .ok (_, k') => some k'
  | .error _ => none

end Kernel
end Xv6
