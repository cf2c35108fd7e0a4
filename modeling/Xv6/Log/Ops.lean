import Xv6.Log.Basic
import Xv6.Proc.Thread

/-!
# The log: system call brackets

`begin_op`, `log_write`, `end_op` and `sys_sync` of `kernel/log.c` as programs of kernel threads
that share the log under `log.lock`.  The tests and updates of one critical section are one action;
`commit()` runs without the lock, so each of its disk writes is an action of its own and the other
threads may run in between.

An operation carries the blocks it has logged, and the shared state keeps which transactions have
been handed to `commit()`, and which operations have ended.  These are history variables: no test of
the code looks at them.
-/

namespace Xv6

/-- An operation, from `begin_op` to `end_op`: how many commits had started when it was admitted,
and the blocks it has logged, each with the number of commits started by then. -/
structure LogOp where
  epoch : ℕ
  writes : List (ℕ × ℕ)
  deriving DecidableEq, Repr

/-- The log with its history. -/
structure LogShared extends LogState where
  commits : List LogState  -- the log as it was when each commit started
  ended : List LogOp  -- the operations whose `end_op` has left

/-- Where a thread is in the code of the log. -/
inductive LogPc
  | idle
  | bAcquire  -- begin_op
  | bTest
  | bPrepare
  | bUnlock
  | bSleep
  | bRelease (op : LogOp)
  | inOp (op : LogOp)
  | lAcquire (op : LogOp) (b : ℕ)  -- log_write
  | lTest (op : LogOp) (b : ℕ)
  | lRelease (op : LogOp)
  | eAcquire (op : LogOp)  -- end_op
  | eTest (op : LogOp)
  | eWake
  | eRelease
  | eUnlock  -- with `do_commit` set
  | cTest  -- commit
  | cLog (tail : ℕ)
  | cHead
  | cInstall (tail : ℕ)
  | cClear
  | cErase
  | cAcquire
  | cDone
  | cWake
  | cRelease
  | sAcquire  -- sys_sync
  | sTest
  | sLoop (n : ℕ)
  | sPrepare (n : ℕ)
  | sUnlock (n : ℕ)
  | sSleep (n : ℕ)
  | sLock (n : ℕ)
  | sRelease
  deriving DecidableEq, Repr

/-- What the code of the log does not determine. -/
inductive LogChoice
  | beginOp  -- a system call starts an operation
  | write (b : ℕ) (data : Block)  -- it modifies the buffer of block `b` and calls `log_write`
  | endOp
  | sync
  | go

namespace LogShared

/-- The test `log.lh.n + (log.outstanding + 1) * MAXOPBLOCKS > LOGBLOCKS`. -/
def NoSpace (x : LogShared) : Prop :=
  (x.lh.length : ℤ) + (x.outstanding + 1) * MAXOPBLOCKS > LOGBLOCKS

instance (x : LogShared) : Decidable x.NoSpace := inferInstanceAs (Decidable (_ > _))

/-- The critical section of `begin_op`. -/
def beginOp (x : LogShared) : Outcome LogShared LogPc :=
  if x.committing = true then .next x .bPrepare
  else if x.NoSpace then .next x .bPrepare
  else .next { x with outstanding := x.outstanding + 1 }
    (.bRelease { epoch := x.commits.length, writes := [] })

/-- The critical section of `log_write`. -/
def logWrite (x : LogShared) (op : LogOp) (b : ℕ) : Outcome LogShared LogPc :=
  if x.lh.length ≥ LOGBLOCKS then .panic "too big a transaction"
  else if x.outstanding < 1 then .panic "log_write outside of trans"
  else
    let l := .lRelease { op with writes := op.writes ++ [(b, x.commits.length)] }
    if b ∈ x.lh then .next x l  -- log absorption
    else .next { x with toLogState := { x.toLogState.bpin b with lh := x.lh ++ [b] } } l

/-- The critical section of `end_op`.  What the header lists now is the transaction handed to
`commit()`. -/
def endOp (x : LogShared) (op : LogOp) : Outcome LogShared LogPc :=
  let x := { x with outstanding := x.outstanding - 1, ended := x.ended ++ [op] }
  if x.committing = true then .panic "log.committing"
  else if x.outstanding = 0 then
    let x := { x with committing := true }
    .next { x with commits := x.commits ++ [x.toLogState] } .eUnlock
  else .next x .eWake

end LogShared

/-- `begin_op`, `log_write`, `end_op` with `commit`, and `sys_sync`; `chan` is `&log`. -/
def logCode (chan : ℕ) : LogPc → Instr LogShared LogPc LogChoice
  | .idle => .act fun x ch =>
    match ch with
    | .beginOp => .next x .bAcquire
    | .sync => .next x .sAcquire
    | _ => .stuck
  -- begin_op
  | .bAcquire => .acquire .bTest
  | .bTest => .act fun x _ => x.beginOp
  | .bPrepare => .sleepPrepare chan .bUnlock
  | .bUnlock => .release .bSleep
  | .bSleep => .sleep .bAcquire
  | .bRelease op => .release (.inOp op)
  -- the operation
  | .inOp op => .act fun x ch =>
    match ch with
    | .write b data => .next { x with blk := Function.update x.blk b data } (.lAcquire op b)
    | .endOp => .next x (.eAcquire op)
    | _ => .stuck
  -- log_write
  | .lAcquire op b => .acquire (.lTest op b)
  | .lTest op b => .act fun x _ => x.logWrite op b
  | .lRelease op => .release (.inOp op)
  -- end_op
  | .eAcquire op => .acquire (.eTest op)
  | .eTest op => .act fun x _ => x.endOp op
  | .eWake => .wakeup chan .eRelease
  | .eRelease => .release .idle
  | .eUnlock => .release .cTest
  -- commit
  | .cTest => .act fun x _ => if x.lh.length > 0 then .next x (.cLog 0) else .next x .cAcquire
  | .cLog tail => .act fun x _ =>
    match x.lh[tail]? with
    | some b => .next { x with toLogState := x.toLogState.writeLogAt tail b } (.cLog (tail + 1))
    | none => .next x .cHead
  | .cHead => .act fun x _ => .next { x with toLogState := x.toLogState.writeHead } (.cInstall 0)
  | .cInstall tail => .act fun x _ =>
    match x.lh[tail]? with
    | some b =>
      .next { x with toLogState := x.toLogState.installTransAt false tail b } (.cInstall (tail + 1))
    | none => .next x .cClear
  | .cClear => .act fun x _ => .next { x with toLogState := x.toLogState.clearHead } .cErase
  | .cErase => .act fun x _ => .next { x with toLogState := x.toLogState.writeHead } .cAcquire
  -- end_op, after the commit
  | .cAcquire => .acquire .cDone
  | .cDone => .act fun x _ => .next { x with committing := false, ncommit := x.ncommit + 1 } .cWake
  | .cWake => .wakeup chan .cRelease
  | .cRelease => .release .idle
  -- sys_sync
  | .sAcquire => .acquire .sTest
  | .sTest => .act fun x _ =>
    if x.committing = true ∨ x.outstanding > 0 then .next x (.sLoop (x.ncommit + 1))
    else .next x .sRelease
  | .sLoop n => .act fun x _ => if x.ncommit < n then .next x (.sPrepare n) else .next x .sRelease
  | .sPrepare n => .sleepPrepare chan (.sUnlock n)
  | .sUnlock n => .release (.sSleep n)
  | .sSleep n => .sleep (.sLock n)
  | .sLock n => .acquire (.sLoop n)
  | .sRelease => .release .idle

end Xv6
