import Xv6.Kernel.Basic

/-!
# `exec`

`kernel/exec.c`, `sys_exec` of `kernel/sysfile.c` and `fetchaddr` and `fetchstr` of
`kernel/syscall.c`.  The executable is any file: all that is known of it is what `readi` returns.  A
jump to the label `bad` is a result that says so, together with the size reached so far.
-/

namespace Xv6

/-- An executable: the bytes that `readi` reads at an offset, and how many it reads when asked for
`n`. -/
structure ExecFile where
  bytes : ℕ → Bytes
  readi : ℕ → ℕ → ℕ
  readi_le : ∀ off n, readi off n ≤ n

def ELF_MAGIC : BitVec 32 := 0x464C457F
def ELF_PROG_LOAD : BitVec 32 := 1

/-- `struct elfhdr`, as read from a file. -/
abbrev Elfhdr := Bytes

namespace Elfhdr

def size : ℕ := 64
def magic (h : Elfhdr) : BitVec 32 := h.get32 0
def entry (h : Elfhdr) : BitVec 64 := h.get64 24
def phoff (h : Elfhdr) : BitVec 64 := h.get64 32
def phnum (h : Elfhdr) : BitVec 16 := h.get16 56

end Elfhdr

/-- `struct proghdr`, as read from a file. -/
abbrev Proghdr := Bytes

namespace Proghdr

def size : ℕ := 56
def type (h : Proghdr) : BitVec 32 := h.get32 0
def flags (h : Proghdr) : BitVec 32 := h.get32 4
def off (h : Proghdr) : BitVec 64 := h.get64 8
def vaddr (h : Proghdr) : ℕ := (h.get64 16).toNat
def filesz (h : Proghdr) : ℕ := (h.get64 32).toNat
def memsz (h : Proghdr) : ℕ := (h.get64 40).toNat

end Proghdr

/-- Map ELF permissions to bits of an entry. -/
def flags2perm (flags : BitVec 32) : Pte :=
  (if flags &&& 1 ≠ 0 then PTE_X else 0) ||| (if flags &&& 2 ≠ 0 then PTE_W else 0)

/-- `strlen` of a string in a region of `n` bytes, from the offset `o` on. -/
def strlenFrom (s : Bytes) : ℕ → ℕ → ℕ
  | 0, _ => 0
  | n + 1, o => if s o = 0 then 0 else strlenFrom s n (o + 1) + 1

/-- `strlen` finds the NUL. -/
lemma strlenFrom_eq {s : Bytes} {o k : ℕ} (n : ℕ) (hk : k < n) (hne : ∀ j < k, s (o + j) ≠ 0) (hnul : s (o + k) = 0) :
    strlenFrom s n o = k := by
  induction n generalizing o k with
  | zero => exact absurd hk (Nat.not_lt_zero _)
  | succ n ih =>
    rw [strlenFrom]
    cases k with
    | zero => exact if_pos hnul
    | succ k =>
      have h0 : s o ≠ 0 := hne 0 (by omega)
      have hrest : ∀ j < k, s (o + 1 + j) ≠ 0 := by
        intro j hj
        rw [show o + 1 + j = o + (j + 1) by omega]
        exact hne (j + 1) (by omega)
      have hlast : s (o + 1 + k) = 0 := by
        rw [show o + 1 + k = o + (k + 1) by omega]
        exact hnul
      rw [if_neg h0, ih (by omega) hrest hlast]

/-- `strlen` of a string in a page. -/
def strlen (s : Bytes) : ℕ := strlenFrom s PGSIZE 0

/-- Subtraction of 64-bit numbers. -/
def sub64 (a b : ℕ) : ℕ := (a + 2 ^ 64 - b) % 2 ^ 64

variable [Layout]

/-- The loop of `loadseg`. -/
def loadsegLoop (pagetable va : ℕ) (ip : ExecFile) (offset sz : ℕ) : ℕ → ℕ → MemM ℤ
  | 0, _ => return 0
  | k + 1, i => do
    let pa ← walkaddr pagetable (va + i)
    if pa = 0 then throw "loadseg: address should exist"
    let n := if sz - i < PGSIZE then sz - i else PGSIZE
    let off := (offset + i) % 2 ^ 32
    modify fun m => m.write pa ((m.page pa).blit 0 (ip.bytes off) 0 (ip.readi off n))
    if ip.readi off n ≠ n then return -1
    loadsegLoop pagetable va ip offset sz k (i + PGSIZE)

/-- Load a program segment into `pagetable` at the address `va`. -/
def loadseg (pagetable va : ℕ) (ip : ExecFile) (offset sz : BitVec 32) : MemM ℤ :=
  loadsegLoop pagetable va ip offset.toNat sz.toNat ((sz.toNat + PGSIZE - 1) / PGSIZE) 0

/-- The loop of `kexec` over the program headers: the size reached, and whether all were loaded. -/
def loadProgram (pagetable : ℕ) (ip : ExecFile) : ℕ → BitVec 32 → ℕ → MemM (ℕ × Bool)
  | 0, _, sz => return (sz, true)
  | n + 1, off, sz => do
    let next := off + BitVec.ofNat 32 Proghdr.size
    let ph := ip.bytes off.toNat
    if ip.readi off.toNat Proghdr.size ≠ Proghdr.size then return (sz, false)
    if Proghdr.type ph ≠ ELF_PROG_LOAD then
      loadProgram pagetable ip n next sz
    else
      let vaddr := Proghdr.vaddr ph
      let memsz := Proghdr.memsz ph
      if memsz < Proghdr.filesz ph then return (sz, false)
      if (vaddr + memsz) % 2 ^ 64 < vaddr then return (sz, false)
      if vaddr % PGSIZE ≠ 0 then return (sz, false)
      let sz1 ← uvmalloc pagetable sz (vaddr + memsz) (flags2perm (Proghdr.flags ph))
      if sz1 = 0 then return (sz, false)
      -- `loadseg` takes offset and size as 32-bit numbers
      let r ← loadseg pagetable vaddr ip ((Proghdr.off ph).setWidth 32)
        (BitVec.ofNat 32 (Proghdr.filesz ph))
      if r < 0 then return (sz1, false)
      loadProgram pagetable ip n next sz1

/-- The loop of `kexec` that copies the argument strings into the new stack, with their addresses so
far in `ustack`. -/
def pushStrings (pagetable sz stackbase : ℕ) : List Bytes → ℕ → List ℕ → MemM (Option (ℕ × List ℕ))
  | [], sp, ustack => return some (sp, ustack)
  | s :: argv, sp, ustack => do
    let sp := sub64 sp (strlen s + 1)
    let sp := sp - sp % 16  -- riscv sp must be 16-byte aligned
    if sp < stackbase then return none
    if (← copyout pagetable sz sp s (strlen s + 1)) < 0 then return none
    pushStrings pagetable sz stackbase argv sp (ustack ++ [sp])

/-- The memory of an array of 64-bit numbers. -/
def wordsBytes (ws : List ℕ) : Bytes := fun i =>
  (BitVec.ofNat 64 (ws.getD (i / 8) 0)).extractLsb' (8 * (i % 8)) 8

/-- The part of `kexec` that makes the user stack: the size reached and, unless it fails, the stack
pointer. -/
def setupStack (pagetable sz : ℕ) (argv : List Bytes) : MemM (ℕ × Option ℕ) := do
  let sz := pgRoundUp sz
  let sz1 ← uvmalloc pagetable sz (sz + (USERSTACK + 1) * PGSIZE) PTE_W
  if sz1 = 0 then return (sz, none)
  -- the first page is a guard
  uvmclear pagetable (sz1 - (USERSTACK + 1) * PGSIZE)
  let stackbase := sz1 - USERSTACK * PGSIZE
  match ← pushStrings pagetable sz1 stackbase argv sz1 [] with
  | none => return (sz1, none)
  | some (sp, ustack) =>
    let sp := sub64 sp ((ustack.length + 1) * 8)
    let sp := sp - sp % 16
    if sp < stackbase then return (sz1, none)
    if (← copyout pagetable sz1 sp (wordsBytes (ustack ++ [0])) ((ustack.length + 1) * 8)) < 0 then
      return (sz1, none)
    return (sz1, some sp)

namespace Kernel

/-- Store a register of the trapframe of `p`. -/
def setTrapframe (p off : ℕ) (v : BitVec 64) : KernelM Unit := do
  let tf := ((← get).proc p).trapframe
  onMem (modify fun m => m.write tf ((m.page tf).put64 off v))

/-- `kexec`, of the file that `namei` finds. -/
def kexec (p : ℕ) (file : Option ExecFile) (argv : List Bytes) : KernelM ℤ := do
  match file with
  | none => return -1
  | some ip =>
    let elf := ip.bytes 0
    if ip.readi 0 Elfhdr.size ≠ Elfhdr.size then return -1
    if Elfhdr.magic elf ≠ ELF_MAGIC then return -1
    let pagetable ← onMem (procPagetable ((← get).proc p).trapframe)
    if pagetable = 0 then return -1
    match ← onMem (loadProgram pagetable ip (Elfhdr.phnum elf).toNat
        ((Elfhdr.phoff elf).setWidth 32) 0) with
    | (sz, false) =>
      onMem (procFreepagetable pagetable sz)
      return -1
    | (sz, true) =>
      match ← onMem (setupStack pagetable sz argv) with
      | (sz, none) =>
        onMem (procFreepagetable pagetable sz)
        return -1
      | (sz, some sp) =>
        setTrapframe p 120 (BitVec.ofNat 64 sp)  -- a1
        let q := (← get).proc p
        setProc p fun q => { q with pagetable := pagetable, sz := sz }
        setTrapframe p 24 (Elfhdr.entry elf)  -- epc
        setTrapframe p 48 (BitVec.ofNat 64 sp)  -- sp
        onMem (procFreepagetable q.pagetable q.sz)
        return argv.length

/-- Fetch the number at `addr` from the current process. -/
def fetchaddr (p addr : ℕ) : KernelM (Option ℕ) := do
  let q := (← get).proc p
  -- both tests needed, in case of overflow
  if addr ≥ q.sz ∨ (addr + 8) % 2 ^ 64 > q.sz then return none
  let (r, b) ← onMem (copyin q.pagetable q.sz (fun _ => 0) addr 8)
  if r ≠ 0 then return none
  return some (b.get64 0).toNat

/-- Fetch the string at `addr` from the current process into a buffer of `max` bytes with contents
`buf`: the length of the string, or -1, and what is in the buffer then. -/
def fetchstr (p addr : ℕ) (buf : Bytes) (max : ℕ) : KernelM (ℤ × Bytes) := do
  let q := (← get).proc p
  let (r, b) ← onMem (copyinstr q.pagetable q.sz buf addr max)
  if r < 0 then return (-1, b)
  return (strlenFrom b max 0, b)

/-- The loop of `sys_exec` that fetches the arguments from `i` on, each into a page of its own: the
pages taken, and whether all went well. -/
def fetchArgs (p uargv : ℕ) : ℕ → ℕ → List ℕ → KernelM (List ℕ × Bool)
  | 0, _, argv => return (argv, false)
  | n + 1, i, argv => do
    match ← fetchaddr p ((uargv + 8 * i) % 2 ^ 64) with
    | none => return (argv, false)
    | some uarg =>
      if uarg = 0 then return (argv, true)
      let page ← onMem kalloc
      if page = 0 then return (argv, false)
      let (r, b) ← fetchstr p uarg ((← get).mem.page page) PGSIZE
      onMem (modify fun m => m.write page b)
      if r < 0 then return (argv ++ [page], false)
      fetchArgs p uargv n (i + 1) (argv ++ [page])

/-- Free the pages of the arguments. -/
def freeArgs : List ℕ → KernelM Unit
  | [] => return
  | page :: argv => do
    onMem (kfree page)
    freeArgs argv

def sysExec (p path uargv : ℕ) (file : Option ExecFile) : KernelM ℤ := do
  let (r, _) ← fetchstr p path (fun _ => 0) MAXPATH
  if r < 0 then return -1
  match ← fetchArgs p uargv MAXARG 0 [] with
  | (argv, false) =>
    freeArgs argv
    return -1
  | (argv, true) =>
    let k ← get
    let ret ← kexec p file (argv.map k.mem.page)
    freeArgs argv
    return ret

/-- The string `"/init"`. -/
def initPath : Bytes := fun i => [47, 105, 110, 105, 116].getD i 0

/-- The part of `forkret` that starts the first process, from the file `/init`. -/
def forkret (p : ℕ) (file : Option ExecFile) : KernelM Unit := do
  if (← get).first then
    modify fun k => { k with first := false }
    let r ← kexec p file [initPath]
    setTrapframe p 112 (BitVec.ofInt 64 r)  -- a0
    if r = -1 then throw "exec"

end Kernel
end Xv6
