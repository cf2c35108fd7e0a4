import Xv6.Lib.Bytes
import Xv6.Proc.Thread

/-!
# Pipes

`piperead`, `pipewrite` and `pipeclose` of `kernel/pipe.c` as programs of kernel threads that
share one pipe under `pi->lock`.  The positions are those between two calls or tests of the C
text.  What the user's memory decides, namely the calls made and the outcome of each `copyin` and
`copyout`, is a choice of the run.

Nothing is assumed about which ends are open when a call is made: the reference counts of the
file table, which keep a pipe from being closed under a caller, only exclude some of the runs.
-/

namespace Xv6

def PIPESIZE := 512

/-- `struct pipe`, without its spinlock.  The last three fields are history variables: whether the
page has been given back, and the bytes stored and delivered so far. -/
structure Pipe where
  data : ℕ → Byte
  nread : BitVec 32  -- number of bytes read
  nwrite : BitVec 32  -- number of bytes written
  readopen : Bool  -- read fd is still open
  writeopen : Bool  -- write fd is still open
  freed : Bool := false
  stored : List Byte := []
  delivered : List Byte := []

namespace Pipe

/-- The pipe that `pipealloc` sets up in a page with contents `data`. -/
def alloc (data : ℕ → Byte) : Pipe where
  data := data
  nread := 0
  nwrite := 0
  readopen := true
  writeopen := true

/-- The channel `&pi->nread` of the pipe at address `pi`. -/
def nreadChan (pi : ℕ) : ℕ := pi + 536

/-- The channel `&pi->nwrite`. -/
def nwriteChan (pi : ℕ) : ℕ := pi + 540

/-- The test `pi->nwrite == pi->nread + PIPESIZE`. -/
def Full (x : Pipe) : Prop := x.nwrite = x.nread + BitVec.ofNat 32 PIPESIZE

/-- The test `pi->nread == pi->nwrite`. -/
def Empty (x : Pipe) : Prop := x.nread = x.nwrite

instance (x : Pipe) : Decidable x.Full := inferInstanceAs (Decidable (_ = _))

instance (x : Pipe) : Decidable x.Empty := inferInstanceAs (Decidable (_ = _))

/-- `pi->data[pi->nwrite++ % PIPESIZE] = ch`. -/
def store (x : Pipe) (ch : Byte) : Pipe :=
  { x with
    data := Function.update x.data (x.nwrite.toNat % PIPESIZE) ch
    nwrite := x.nwrite + 1
    stored := x.stored ++ [ch] }

/-- `pi->data[pi->nread % PIPESIZE]`. -/
def front (x : Pipe) : Byte := x.data (x.nread.toNat % PIPESIZE)

/-- `pi->nread++`, after the byte has been copied out. -/
def take (x : Pipe) : Pipe :=
  { x with nread := x.nread + 1, delivered := x.delivered ++ [x.front] }

/-- `pi->writeopen = 0` or `pi->readopen = 0`. -/
def closeEnd (x : Pipe) (writable : Bool) : Pipe :=
  if writable then { x with writeopen := false } else { x with readopen := false }

end Pipe

/-- Where a thread is in the code of the pipe.  In the positions of `pipewrite` the flag `fresh`
is a history variable: a byte has been stored since the readers were last woken. -/
inductive PipePc
  | idle (ret : ℤ)  -- in no call; the last one returned `ret`
  | wAcquire (i : ℕ) (n : ℤ)
  | wTest (i : ℕ) (n : ℤ) (fresh : Bool)  -- `i < n`, `pi->readopen == 0`
  | wKilled (i : ℕ) (n : ℤ) (fresh : Bool)  -- `killed(pr)`
  | wFull (i : ℕ) (n : ℤ) (fresh : Bool)  -- full, or copy a byte in and store it
  | wWake (i : ℕ) (n : ℤ)  -- `wakeup(&pi->nread)` of the full branch
  | wPrepare (i : ℕ) (n : ℤ)
  | wUnlock (i : ℕ) (n : ℤ)
  | wSleep (i : ℕ) (n : ℤ)
  | wFail (fresh : Bool)  -- `release(&pi->lock); return -1`
  | wDone (ret : ℤ)  -- `wakeup(&pi->nread)` after the loop
  | wRelease (ret : ℤ)
  | rAcquire (n : ℤ)
  | rTest (n : ℤ)  -- `pi->nread == pi->nwrite && pi->writeopen`
  | rKilled (n : ℤ)
  | rPrepare (n : ℤ)
  | rUnlock (n : ℤ)
  | rSleep (n : ℤ)
  | rFail  -- `release(&pi->lock); return -1`
  | rCopy (i : ℕ) (n : ℤ)
  | rWake (ret : ℤ)
  | rRelease (ret : ℤ)
  | cAcquire (writable : Bool)
  | cSet (writable : Bool)
  | cWake (writable : Bool)
  | cTest  -- `pi->readopen == 0 && pi->writeopen == 0`
  | cRelease (free : Bool)
  | cFree
  deriving DecidableEq, Repr

/-- What the code of the pipe does not determine. -/
inductive PipeChoice
  | read (n : ℤ)  -- the thread calls `piperead`
  | write (n : ℤ)
  | close (writable : Bool)
  | copied (b : Byte)  -- the copy succeeds; a `copyin` yields `b`
  | fault  -- the copy fails
  deriving DecidableEq, Repr

/-- The value `i` has after `if (i == 0) i = -1; break;`. -/
def copyFailed (i : ℕ) : ℤ := if i = 0 then -1 else i

/-- `pipewrite`, `piperead` and `pipeclose` on the pipe at address `pi`. -/
def pipeCode (pi : ℕ) : PipePc → Instr Pipe PipePc PipeChoice
  | .idle _ => .act fun x ch =>
    if x.freed then .stuck
    else match ch with
      | .read n => .next x (.rAcquire n)
      | .write n => .next x (.wAcquire 0 n)
      | .close w => .next x (.cAcquire w)
      | _ => .stuck
  -- pipewrite
  | .wAcquire i n => .acquire (.wTest i n false)
  | .wTest i n fresh => .act fun x _ =>
    if (i : ℤ) < n then
      if x.readopen = false then .next x (.wFail fresh) else .next x (.wKilled i n fresh)
    else .next x (.wDone i)
  | .wKilled i n fresh => .killed (.wFail fresh) (.wFull i n fresh)
  | .wFull i n _ => .act fun x ch =>
    if x.Full then .next x (.wWake i n)
    else match ch with
      | .copied b => .next (x.store b) (.wTest (i + 1) n true)
      | .fault => .next x (.wDone (copyFailed i))
      | _ => .stuck
  | .wWake i n => .wakeup (Pipe.nreadChan pi) (.wPrepare i n)
  | .wPrepare i n => .sleepPrepare (Pipe.nwriteChan pi) (.wUnlock i n)
  | .wUnlock i n => .release (.wSleep i n)
  | .wSleep i n => .sleep (.wAcquire i n)
  | .wFail _ => .release (.idle (-1))
  | .wDone ret => .wakeup (Pipe.nreadChan pi) (.wRelease ret)
  | .wRelease ret => .release (.idle ret)
  -- piperead
  | .rAcquire n => .acquire (.rTest n)
  | .rTest n => .act fun x _ =>
    if x.Empty ∧ x.writeopen = true then .next x (.rKilled n) else .next x (.rCopy 0 n)
  | .rKilled n => .killed .rFail (.rPrepare n)
  | .rPrepare n => .sleepPrepare (Pipe.nreadChan pi) (.rUnlock n)
  | .rUnlock n => .release (.rSleep n)
  | .rSleep n => .sleep (.rAcquire n)
  | .rFail => .release (.idle (-1))
  | .rCopy i n => .act fun x ch =>
    if (i : ℤ) < n then
      if x.Empty then .next x (.rWake i)
      else match ch with
        | .copied _ => .next x.take (.rCopy (i + 1) n)
        | .fault => .next x (.rWake (copyFailed i))
        | _ => .stuck
    else .next x (.rWake i)
  | .rWake ret => .wakeup (Pipe.nwriteChan pi) (.rRelease ret)
  | .rRelease ret => .release (.idle ret)
  -- pipeclose
  | .cAcquire w => .acquire (.cSet w)
  | .cSet w => .act fun x _ => .next (x.closeEnd w) (.cWake w)
  | .cWake w => .wakeup (if w then Pipe.nreadChan pi else Pipe.nwriteChan pi) .cTest
  | .cTest => .act fun x _ =>
    .next x (.cRelease (x.readopen = false ∧ x.writeopen = false))
  | .cRelease free => .release (if free then .cFree else .idle 0)
  | .cFree => .act fun x _ => .next { x with freed := true } (.idle 0)

end Xv6
