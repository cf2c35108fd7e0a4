import Xv6.Lib.Bytes
import Xv6.Lib.Run

/-!
# The console

The input side of `kernel/console.c`: `consoleintr`, which the UART's interrupt handler calls with
each character, and `consoleread`.  Both run under `cons.lock`, which `consoleread` gives up while
it waits for input; the steps of the system are the stretches between two such points.

A waiting reader may go on at any time: it then tests for input again, so that it does not matter
who woke it.  The bytes delivered to a reader, and what its call returned, are recorded.
-/

namespace Xv6
namespace Console

def INPUT_BUF_SIZE : ℕ := 128

def BACKSPACE : ℕ := 0x100  -- erase the last output character

/-- `C(x)`, for a capital letter given by its code. -/
def ctrl (x : ℕ) : Byte := BitVec.ofNat 8 (x - 0x40)

def ctrlD : Byte := ctrl 0x44
def ctrlH : Byte := ctrl 0x48
def ctrlP : Byte := ctrl 0x50
def ctrlU : Byte := ctrl 0x55
def delete : Byte := 0x7f
def newline : Byte := 0x0a
def carriageReturn : Byte := 0x0d

/-- `cons`, without its lock, and the characters echoed so far. -/
structure Cons where
  buf : ℕ → Byte
  r : BitVec 32  -- Read index
  w : BitVec 32  -- Write index
  e : BitVec 32  -- Edit index
  echo : List ℕ := []

namespace Cons

def consputc (k : ℕ) (c : Cons) : Cons := { c with echo := c.echo ++ [k] }

/-- `cons.buf[i % INPUT_BUF_SIZE]`. -/
def charAt (c : Cons) (i : BitVec 32) : Byte := c.buf (i.toNat % INPUT_BUF_SIZE)

/-- Erase the character before the edit index. -/
def erase (c : Cons) : Cons := consputc BACKSPACE { c with e := c.e - 1 }

/-- The loop of `consoleintr` that kills a line.  The buffer bounds the number of its rounds. -/
def killLoop : ℕ → Cons → Cons
  | 0, c => c
  | n + 1, c => if c.e ≠ c.w ∧ c.charAt (c.e - 1) ≠ newline then killLoop n c.erase else c

/-- Store a character and hand the line over when it is complete. -/
def store (ch : Byte) (c : Cons) : Cons :=
  let c := consputc ch.toNat c
  let c := { c with
    buf := Function.update c.buf (c.e.toNat % INPUT_BUF_SIZE) ch
    e := c.e + 1 }
  if ch = newline ∨ ch = ctrlD ∨ (c.e - c.r).toNat = INPUT_BUF_SIZE then { c with w := c.e } else c

/-- The console input interrupt handler. -/
def consoleintr (ch : Byte) (c : Cons) : Cons :=
  if ch = ctrlP then c  -- print process list
  else if ch = ctrlU then killLoop INPUT_BUF_SIZE c
  else if ch = ctrlH ∨ ch = delete then if c.e ≠ c.w then c.erase else c
  else if ch ≠ 0 ∧ (c.e - c.r).toNat < INPUT_BUF_SIZE then
    store (if ch = carriageReturn then newline else ch) c
  else c

end Cons

/-- How a stretch of `consoleread` ends: the reader waits, with `n` bytes to go, or returns. -/
inductive Outcome where
  | wait (n : ℕ) (got : List Byte)
  | ret (result : ℤ) (got : List Byte)
deriving DecidableEq

/-- The loop of `consoleread`, from where the lock is held to where it is given up.  `copy i` is the
outcome of the copy to `dst + i`. -/
def readLoop (killed : Bool) (copy : ℕ → Bool) (target : ℕ) : ℕ → List Byte → Cons → Outcome × Cons
  | 0, got, c => (.ret target got, c)
  | n + 1, got, c =>
    if c.r = c.w then
      if killed then (.ret (-1) got, c) else (.wait (n + 1) got, c)
    else
      let ch := c.charAt c.r
      let c := { c with r := c.r + 1 }
      if ch = ctrlD then
        -- save ^D for next time, to make sure the caller gets a 0-byte result
        let c := if n + 1 < target then { c with r := c.r - 1 } else c
        (.ret (target - (n + 1)) got, c)
      else if copy (target - (n + 1)) = false then (.ret (target - (n + 1)) got, c)
      else if ch = newline then (.ret (target - n) (got ++ [ch]), c)
      else readLoop killed copy target n (got ++ [ch]) c

/-- A call of `consoleread` that waits. -/
structure Reader where
  target : ℕ
  copy : ℕ → Bool
  n : ℕ  -- bytes to go
  got : List Byte  -- bytes delivered

/-- What a call returned: the process, the result and the bytes delivered. -/
structure Returned where
  pid : ℕ
  result : ℤ
  got : List Byte
deriving DecidableEq

/-- The console and the processes that read from it. -/
structure State where
  cons : Cons
  readers : ℕ → Option Reader := fun _ => none
  returned : List Returned := []

inductive Op where
  | intr (ch : Byte)
  -- a call of `consoleread(n)`, and a waiting reader that goes on
  | read (pid : ℕ) (n : ℤ) (copy : ℕ → Bool) (killed : Bool)
  | resume (pid : ℕ) (killed : Bool)

namespace State

/-- The reader waits or its call is over. -/
def settle (pid target : ℕ) (copy : ℕ → Bool) (s : State) : Outcome × Cons → State
  | (.wait n got, c) =>
    { s with cons := c, readers := Function.update s.readers pid (some ⟨target, copy, n, got⟩) }
  | (.ret result got, c) =>
    { cons := c
      readers := Function.update s.readers pid none
      returned := s.returned ++ [⟨pid, result, got⟩] }

/-- One step of the system.  A call with `n ≤ 0` does not enter the loop. -/
def step (s : State) : Op → Option State
  | .intr ch => some { s with cons := s.cons.consoleintr ch }
  | .read pid n copy killed =>
    match s.readers pid with
    | some _ => none
    | none => some (s.settle pid n.toNat copy (readLoop killed copy n.toNat n.toNat [] s.cons))
  | .resume pid killed =>
    match s.readers pid with
    | none => none
    | some rd =>
      some (s.settle pid rd.target rd.copy (readLoop killed rd.copy rd.target rd.n rd.got s.cons))

end State

/-- The console at the start. -/
def boot : State := { cons := { buf := fun _ => 0, r := 0, w := 0, e := 0 } }

end Console
end Xv6
