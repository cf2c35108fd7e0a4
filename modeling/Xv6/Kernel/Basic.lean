import Xv6.File
import Xv6.Pipe.Basic
import Xv6.Vm.Basic

/-!
# Processes and their resources

The state of the kernel that `fork`, `exec`, `exit`, `wait`, `sbrk`, page faults and pipes work on:
physical memory, the process table, the file table and the pipes.  Each function below is one of
`kernel/proc.c`, `kernel/file.c`, `kernel/pipe.c` or `kernel/sysfile.c`, with the acting process in
place of `myproc()`; it runs to completion, so that locks do not appear.

The contents of a pipe are kept beside its page.  The file system is not part of this state:
`iput`, `idup` and the like are left out, and what `namei`, `create` and `readi` return is an
argument.  `p->name` and `p->context` are left out as well.
-/

namespace Xv6

open Function

/-! ## The state -/

structure Kernel where
  mem : Mem
  proc : ℕ → Proc := fun _ => {}
  nextpid : ℤ := 1
  initproc : Option ℕ := none
  first : Bool := true  -- of `forkret`
  file : ℕ → File := fun _ => {}  -- `ftable.file`
  pipe : ℕ → Option Pipe := fun _ => none  -- the pipes in use, by page

abbrev KernelM := StateT Kernel (Except String)

namespace Kernel

/-- Run a function of the memory. -/
def onMem {α : Type} (x : MemM α) : KernelM α := fun k =>
  match x k.mem with
  | .ok (a, m) => .ok (a, { k with mem := m })
  | .error e => .error e

/-- Change the slot `p` of the process table. -/
def setProc (p : ℕ) (f : Proc → Proc) : KernelM Unit :=
  modify fun k => { k with proc := update k.proc p (f (k.proc p)) }

/-- Change the entry `f` of the file table. -/
def setFile (f : ℕ) (g : File → File) : KernelM Unit :=
  modify fun k => { k with file := update k.file f (g (k.file f)) }

variable [Layout]

/-- The address of a slot, as a channel; null has the channel 0. -/
def procChan : Option ℕ → ℕ
  | none => 0
  | some p => Layout.proc + 360 * p

/-- Wake up all processes sleeping on channel `c`. -/
def wakeup (c : ℕ) : KernelM Unit :=
  modify fun k => { k with proc := fun p => if p < NPROC then (k.proc p).wakeup c else k.proc p }

/-! ## `kernel/pipe.c` and `kernel/file.c` -/

/-- `pipeclose`: close one end of the pipe in the page `pi`. -/
def pipeclose (pi : ℕ) (writable : Bool) : KernelM Unit := do
  match (← get).pipe pi with
  | none => throw "pipeclose: not a pipe"
  | some x =>
    let x := x.closeEnd writable
    modify fun k => { k with pipe := update k.pipe pi (some x) }
    wakeup (if writable then Pipe.nreadChan pi else Pipe.nwriteChan pi)
    if !x.readopen && !x.writeopen then
      modify fun k => { k with pipe := update k.pipe pi none }
      onMem (kfree pi)

/-- Allocate a file structure. -/
def filealloc : KernelM (Option ℕ) := do
  let k ← get
  match (List.range NFILE).find? fun f => (k.file f).ref = 0 with
  | none => return none
  | some f =>
    setFile f fun x => { x with ref := 1 }
    return some f

/-- Increment the reference count of file `f`. -/
def filedup (f : ℕ) : KernelM Unit := do
  if ((← get).file f).ref < 1 then throw "filedup"
  setFile f fun x => { x with ref := x.ref + 1 }

/-- Decrement the reference count of file `f`, and close it when that reaches 0. -/
def fileclose (f : ℕ) : KernelM Unit := do
  let ff := (← get).file f
  if ff.ref < 1 then throw "fileclose"
  if ff.ref - 1 > 0 then
    setFile f fun x => { x with ref := x.ref - 1 }
  else
    setFile f fun x => { x with ref := 0, type := .none }
    if ff.type = .pipe then pipeclose ff.pipe ff.writable

/-- `pipealloc`: the two ends of a new pipe. -/
def pipealloc : KernelM (Option (ℕ × ℕ)) := do
  match ← filealloc with
  | none => return none
  | some f0 =>
    match ← filealloc with
    | none =>
      fileclose f0
      return none
    | some f1 =>
      let pi ← onMem kalloc
      if pi = 0 then
        fileclose f0
        fileclose f1
        return none
      modify fun k =>
        { k with pipe := update k.pipe pi (some (Pipe.alloc fun i => k.mem.page pi (24 + i))) }
      setFile f0 fun x => { x with type := .pipe, readable := true, writable := false, pipe := pi }
      setFile f1 fun x => { x with type := .pipe, readable := false, writable := true, pipe := pi }
      return some (f0, f1)

/-! ## `kernel/proc.c` -/

/-- The value of an `int`. -/
def toInt32 (n : ℤ) : ℤ := n.bmod (2 ^ 32)

def allocpid : KernelM ℤ := do
  let pid := (← get).nextpid
  modify fun k => { k with nextpid := toInt32 (pid + 1) }
  return pid

/-- Free a slot and the data hanging from it, including user pages. -/
def freeproc (p : ℕ) : KernelM Unit := do
  let tf := ((← get).proc p).trapframe
  if tf ≠ 0 then onMem (kfree tf)
  setProc p fun q => { q with trapframe := 0 }
  let pt := ((← get).proc p).pagetable
  if pt ≠ 0 then onMem (procFreepagetable pt ((← get).proc p).sz)
  setProc p fun q => { q with
    pagetable := 0, sz := 0, pid := 0, chan := 0, killed := false, xstate := 0, state := .unused }

/-- Look in the process table for an `UNUSED` slot and initialise it; `none` if there is no slot or
no memory. -/
def allocproc : KernelM (Option ℕ) := do
  let k ← get
  match (List.range NPROC).find? fun p => (k.proc p).state = .unused with
  | none => return none
  | some p =>
    let pid ← allocpid
    setProc p fun q => { q with pid := pid, state := .used }
    let tf ← onMem kalloc
    setProc p fun q => { q with trapframe := tf }
    if tf = 0 then
      freeproc p
      return none
    let pt ← onMem (procPagetable tf)
    setProc p fun q => { q with pagetable := pt }
    if pt = 0 then
      freeproc p
      return none
    return some p

/-- Set up the first user process, with the root directory `root`. -/
def userinit (root : ℕ) : KernelM Unit := do
  match ← allocproc with
  | none => throw "userinit: null pointer"
  | some p =>
    modify fun k => { k with initproc := some p }
    setProc p fun q => { q with cwd := some root, state := .runnable }

/-- Grow or shrink user memory by `n` bytes. -/
def growproc (p : ℕ) (n : ℤ) : KernelM ℤ := do
  let q := (← get).proc p
  if n > 0 then
    if q.sz + n.toNat > TRAPFRAME then return -1
    let sz ← onMem (uvmalloc q.pagetable q.sz (q.sz + n.toNat) PTE_W)
    if sz = 0 then return -1
    setProc p fun q => { q with sz := sz }
  else if n < 0 then
    -- `sz + n` is computed on 64-bit numbers
    let sz ← onMem (uvmdealloc q.pagetable q.sz ((q.sz + n) % 2 ^ 64).toNat)
    setProc p fun q => { q with sz := sz }
  return 0

/-- The loop of `kfork` that hands the open files from `i` on to the child. -/
def dupFiles (p np : ℕ) : ℕ → ℕ → KernelM Unit
  | 0, _ => return
  | n + 1, i => do
    match ((← get).proc p).ofile i with
    | none => dupFiles p np n (i + 1)
    | some f =>
      filedup f
      setProc np fun q => { q with ofile := update q.ofile i (some f) }
      dupFiles p np n (i + 1)

/-- `kfork` up to the open files, and then `fail` if there is no slot or no memory, or else `next` with
the child and the state that the parent was copied from. -/
def forkThen {α : Type} (p : ℕ) (fail : KernelM α) (next : ℕ → Kernel → KernelM α) : KernelM α := do
  match ← allocproc with
  | none => fail
  | some np =>
    let k ← get
    let r ← onMem (uvmcopy (k.proc p).pagetable (k.proc np).pagetable (k.proc p).sz)
    if r < 0 then
      freeproc np
      fail
    else
      setProc np fun q => { q with sz := (k.proc p).sz }
      -- copy saved user registers; fork returns 0 in the child
      onMem (modify fun m =>
        m.write (k.proc np).trapframe (((m.page (k.proc np).trapframe).blit 0
          (m.page (k.proc p).trapframe) 0 288).put64 112 0))
      dupFiles p np NOFILE 0
      next np k

/-- Create a new process, copying the parent. -/
def kfork (p : ℕ) : KernelM ℤ := forkThen p (return -1) fun np k => do
  setProc np fun q => { q with cwd := (k.proc p).cwd }
  setProc np fun q => { q with parent := some p }
  setProc np fun q => { q with state := .runnable }
  return (k.proc np).pid

/-- Pass the abandoned children of `p` to init: the loop over the slots from `pp` on. -/
def reparent (p : ℕ) : ℕ → ℕ → KernelM Unit
  | 0, _ => return
  | n + 1, pp => do
    let k ← get
    if (k.proc pp).parent = some p then
      setProc pp fun q => { q with parent := k.initproc }
      wakeup (procChan k.initproc)
    reparent p n (pp + 1)

/-- The loop of `kexit` that closes the open files from `fd` on. -/
def closeFiles (p : ℕ) : ℕ → ℕ → KernelM Unit
  | 0, _ => return
  | n + 1, fd => do
    match ((← get).proc p).ofile fd with
    | none => closeFiles p n (fd + 1)
    | some f =>
      fileclose f
      setProc p fun q => { q with ofile := update q.ofile fd none }
      closeFiles p n (fd + 1)

/-- Exit the current process; it remains a zombie until its parent calls `wait`. -/
def kexit (p : ℕ) (status : ℤ) : KernelM Unit := do
  if (← get).initproc = some p then throw "init exiting"
  closeFiles p NOFILE 0
  setProc p fun q => { q with cwd := none }
  reparent p NPROC 0
  wakeup (procChan ((← get).proc p).parent)
  setProc p fun q => { q with xstate := status, state := .zombie }

/-- The memory that holds an `int`. -/
def intBytes (n : ℤ) : Bytes := Bytes.put32 (fun _ => 0) 0 (BitVec.ofInt 32 n)

/-- One round of the loop of `kwait`: the pid of an exited child, -1, or `none` when the process goes
to sleep. -/
def kwait (p : ℕ) (addr : ℕ) : KernelM (Option ℤ) := do
  let k ← get
  match (List.range NPROC).find? fun pp =>
      (k.proc pp).parent = some p ∧ (k.proc pp).state = .zombie with
  | some pp =>
    if addr ≠ 0 then
      let r ← onMem (copyout (k.proc p).pagetable (k.proc p).sz addr (intBytes (k.proc pp).xstate) 4)
      if r < 0 then return some (-1)
    setProc pp fun q => { q with parent := none }
    freeproc pp
    return some (k.proc pp).pid
  | none =>
    let havekids := (List.range NPROC).any fun pp => (k.proc pp).parent = some p
    if !havekids || (k.proc p).killed then return some (-1)
    setProc p (Proc.sleepPrepare (procChan (some p)))
    setProc p Proc.sleep
    return none

/-- Kill the process with the given pid. -/
def kkill (pid : ℤ) : KernelM ℤ := do
  let k ← get
  match (List.range NPROC).find? fun p => (k.proc p).pid = pid with
  | none => return -1
  | some p =>
    setProc p Proc.kkill
    return 0

def setkilled (p : ℕ) : KernelM Unit := setProc p fun q => { q with killed := true }

/-! ## `kernel/sysproc.c`, `kernel/sysfile.c` and `kernel/trap.c` -/

def SBRK_EAGER : ℤ := 1

def sysSbrk (p : ℕ) (n t : ℤ) : KernelM ℤ := do
  let addr := ((← get).proc p).sz
  if t = SBRK_EAGER ∨ n < 0 then
    if (← growproc p n) < 0 then return -1
  else
    -- lazily allocate memory: `vmfault` will allocate it
    if (addr + n.toNat) % 2 ^ 64 < addr then return -1
    if (addr + n.toNat) % 2 ^ 64 > TRAPFRAME then return -1
    setProc p fun q => { q with sz := (q.sz + n.toNat) % 2 ^ 64 }
  return addr

/-- Allocate a file descriptor for the given file. -/
def fdalloc (p f : ℕ) : KernelM ℤ := do
  let k ← get
  match (List.range NOFILE).find? fun fd => ((k.proc p).ofile fd).isNone with
  | none => return -1
  | some fd =>
    setProc p fun q => { q with ofile := update q.ofile fd (some f) }
    return fd

/-- `argfd`: the file of a descriptor. -/
def argfd (p : ℕ) (fd : ℤ) : KernelM (Option ℕ) := do
  if fd < 0 ∨ fd ≥ NOFILE then return none
  return ((← get).proc p).ofile fd.toNat

def sysDup (p : ℕ) (fd : ℤ) : KernelM ℤ := do
  match ← argfd p fd with
  | none => return -1
  | some f =>
    let fd ← fdalloc p f
    if fd < 0 then return -1
    filedup f
    return fd

def sysClose (p : ℕ) (fd : ℤ) : KernelM ℤ := do
  match ← argfd p fd with
  | none => return -1
  | some f =>
    setProc p fun q => { q with ofile := update q.ofile fd.toNat none }
    fileclose f
    return 0

/-- The inode that `create` or `namei` found for `sys_open`: its number in the inode table, and the
major number of a device. -/
structure Found where
  ip : ℕ
  major : Option ℤ

/-- `sys_open`, given what the file system finds; `none` also stands for a directory that is to be
written. -/
def sysOpen (p : ℕ) (found : Option Found) (omode : BitVec 32) : KernelM ℤ := do
  match found with
  | none => return -1
  | some ⟨ip, major⟩ =>
    if major.any fun m => m < 0 ∨ m ≥ (NDEV : ℤ) then return -1
    match ← filealloc with
    | none => return -1
    | some f =>
      let fd ← fdalloc p f
      if fd < 0 then
        fileclose f
        return -1
      match major with
      | some m => setFile f fun x => { x with type := .device, major := m }
      | none => setFile f fun x => { x with type := .inode, off := 0 }
      setFile f fun x => { x with
        ip := ip
        readable := omode &&& O_WRONLY = 0
        writable := omode &&& O_WRONLY ≠ 0 ∨ omode &&& O_RDWR ≠ 0 }
      return fd

def sysPipe (p : ℕ) (fdarray : ℕ) : KernelM ℤ := do
  match ← pipealloc with
  | none => return -1
  | some (rf, wf) =>
    let fd0 ← fdalloc p rf
    let fd1 ← if fd0 < 0 then pure (-1) else fdalloc p wf
    if fd0 < 0 ∨ fd1 < 0 then
      if fd0 ≥ 0 then
        setProc p fun q => { q with ofile := update q.ofile fd0.toNat none }
      fileclose rf
      fileclose wf
      return -1
    let q := (← get).proc p
    let r ← onMem (copyout q.pagetable q.sz fdarray (intBytes fd0) 4)
    let r ← if r < 0 then pure r else
      onMem (copyout q.pagetable q.sz ((fdarray + 4) % 2 ^ 64) (intBytes fd1) 4)
    if r < 0 then
      setProc p fun q => { q with ofile := update q.ofile fd0.toNat none }
      setProc p fun q => { q with ofile := update q.ofile fd1.toNat none }
      fileclose rf
      fileclose wf
      return -1
    return 0

/-- The part of `usertrap` for a page fault at the address `va`. -/
def usertrapFault (p va : ℕ) : KernelM Unit := do
  let q := (← get).proc p
  if (← onMem (vmfault q.pagetable q.sz va)) = 0 then setkilled p
  if ((← get).proc p).killed then kexit p (-1)

end Kernel
end Xv6
