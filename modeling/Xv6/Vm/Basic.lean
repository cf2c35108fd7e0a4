import Xv6.Lib.Bytes
import Xv6.Lib.Hoare

/-!
# Physical pages and user page tables

`kernel/kalloc.c` and the part of `kernel/vm.c` that works on user page tables, over a memory of
4096-byte pages.  The free list is threaded through the free pages as in the source, page-table
pages hold little-endian 64-bit entries, and a function stops with the text of the source's panic
where the source panics.

A pointer to a page is the page's address, with `0` for null, and a pointer to a page-table entry is
the address of its page with an index.  Functions that return an `int` return `ℤ` here.  A C loop is
a recursion on the number of iterations left.
-/

namespace Xv6

/-! ## `kernel/riscv.h` and `kernel/memlayout.h` -/

def PGSIZE : ℕ := 4096  -- bytes per page
def MAXVA : ℕ := 2 ^ 38  -- one beyond the highest possible virtual address
def TRAMPOLINE : ℕ := MAXVA - PGSIZE
def TRAPFRAME : ℕ := TRAMPOLINE - PGSIZE
def KERNBASE : ℕ := 0x80000000
def PHYSTOP : ℕ := KERNBASE + 128 * 1024 * 1024

/-- `PGROUNDUP`, on 64-bit numbers. -/
def pgRoundUp (n : ℕ) : ℕ := (n + PGSIZE - 1) % 2 ^ 64 / PGSIZE * PGSIZE

/-- `PGROUNDDOWN`. -/
def pgRoundDown (n : ℕ) : ℕ := n / PGSIZE * PGSIZE

/-- A page-table entry. -/
abbrev Pte := BitVec 64

def PTE_V : Pte := 1  -- valid
def PTE_R : Pte := 2
def PTE_W : Pte := 4
def PTE_X : Pte := 8
def PTE_U : Pte := 16  -- user can access

/-- The test `pte & f`. -/
def Pte.has (pte f : Pte) : Bool := pte &&& f ≠ 0

/-- `PA2PTE`: shift a physical address to the right place for an entry. -/
def pa2pte (pa : ℕ) : Pte := BitVec.ofNat 64 pa >>> 12 <<< 10

/-- `PTE2PA`. -/
def pte2pa (pte : Pte) : ℕ := (pte >>> 10 <<< 12).toNat

/-- `PTE_FLAGS`. -/
def pteFlags (pte : Pte) : Pte := pte &&& 0x3FF

/-- `PX`: the index of an entry at one level of the table. -/
def px (level va : ℕ) : ℕ := va / 2 ^ (12 + 9 * level) % 512

/-- The addresses that the linker decides: the end of the kernel, its trampoline page and its table
of processes. -/
class Layout where
  kend : ℕ  -- `end`, the first address after the kernel
  trampoline : ℕ
  proc : ℕ  -- the table `proc`
  trampoline_aligned : trampoline % PGSIZE = 0
  le_trampoline : KERNBASE ≤ trampoline
  trampoline_le : trampoline + PGSIZE ≤ kend
  kend_le : kend ≤ PHYSTOP

variable [Layout]

open Layout

/-! ## `kernel/kalloc.c` -/

/-- Physical memory and its allocator.  `fails` says which of the coming calls of `kalloc` find no
memory: besides the list being empty, other processes may have taken the last pages.  `denied` is a
history variable. -/
structure Mem where
  page : ℕ → Bytes  -- contents, by page address
  freelist : ℕ  -- `kmem.freelist`
  fails : ℕ → Bool
  denied : Bool := false  -- a call of `kalloc` has found no memory

abbrev MemM := StateT Mem (Except String)

/-- Store into the page at `pa`. -/
def Mem.write (m : Mem) (pa : ℕ) (b : Bytes) : Mem :=
  { m with page := Function.update m.page pa b }

/-- `memset(pa, c, PGSIZE)`. -/
def memset (pa : ℕ) (c : Byte) : MemM Unit :=
  modify fun m => m.write pa ((m.page pa).fill 0 PGSIZE c)

/-- Free the page of physical memory at `pa`. -/
def kfree (pa : ℕ) : MemM Unit := do
  if pa % PGSIZE ≠ 0 ∨ pa < kend ∨ pa ≥ PHYSTOP then throw "kfree"
  memset pa 1
  modify fun m =>
    { m.write pa ((m.page pa).put64 0 (BitVec.ofNat 64 m.freelist)) with freelist := pa }

/-- Allocate one page of physical memory. -/
def kalloc : MemM ℕ := do
  let m ← get
  set { m with
    fails := fun n => m.fails (n + 1)
    denied := m.denied || m.fails 0 || decide (m.freelist = 0) }
  if m.fails 0 then return 0
  let r := m.freelist
  if r ≠ 0 then
    modify fun m => { m with freelist := ((m.page r).get64 0).toNat }
    memset r 5
  return r

/-! ## `kernel/vm.c` -/

/-- `pagetable[i]`. -/
def getPte (pagetable i : ℕ) : MemM Pte := do
  return ((← get).page pagetable).get64 (8 * i)

/-- `pagetable[i] = pte`. -/
def setPte (pagetable i : ℕ) (pte : Pte) : MemM Unit :=
  modify fun m => m.write pagetable ((m.page pagetable).put64 (8 * i) pte)

/-- One iteration of the loop of `walk`: go down one level, making the page if need be. -/
def walkLevel (pagetable va level : ℕ) (alloc : Bool) : MemM (Option ℕ) := do
  let pte ← getPte pagetable (px level va)
  if pte.has PTE_V then return some (pte2pa pte)
  if !alloc then return none
  let page ← kalloc
  if page = 0 then return none
  memset page 0
  setPte pagetable (px level va) (pa2pte page ||| PTE_V)
  return some page

/-- The entry of `pagetable` for the address `va`. -/
def walk (pagetable va : ℕ) (alloc : Bool) : MemM (Option (ℕ × ℕ)) := do
  if va ≥ MAXVA then throw "walk"
  match ← walkLevel pagetable va 2 alloc with
  | none => return none
  | some pagetable =>
    match ← walkLevel pagetable va 1 alloc with
    | none => return none
    | some pagetable => return some (pagetable, px 0 va)

/-- Look up a user address: its physical page, or 0. -/
def walkaddr (pagetable va : ℕ) : MemM ℕ := do
  if va ≥ MAXVA then return 0
  match ← walk pagetable va false with
  | none => return 0
  | some (pg, i) =>
    let pte ← getPte pg i
    if !pte.has PTE_V then return 0
    if !pte.has PTE_U then return 0
    return pte2pa pte

/-- The loop of `mappages`. -/
def mappagesLoop (pagetable : ℕ) (perm : Pte) : ℕ → ℕ → ℕ → MemM ℤ
  | 0, _, _ => return 0
  | n + 1, a, pa => do
    match ← walk pagetable a true with
    | none => return -1
    | some (pg, i) =>
      if (← getPte pg i).has PTE_V then throw "mappages: remap"
      setPte pg i (pa2pte pa ||| perm ||| PTE_V)
      mappagesLoop pagetable perm n (a + PGSIZE) (pa + PGSIZE)

/-- Create entries for the addresses from `va` on that refer to the physical addresses from `pa`
on. -/
def mappages (pagetable va size pa : ℕ) (perm : Pte) : MemM ℤ := do
  if va % PGSIZE ≠ 0 then throw "mappages: va not aligned"
  if size % PGSIZE ≠ 0 then throw "mappages: size not aligned"
  if size = 0 then throw "mappages: size"
  mappagesLoop pagetable perm (size / PGSIZE) va pa

/-- Create an empty user page table. -/
def uvmcreate : MemM ℕ := do
  let pagetable ← kalloc
  if pagetable = 0 then return 0
  memset pagetable 0
  return pagetable

/-- One iteration of the loop of `uvmunmap`. -/
def uvmunmapPage (pagetable : ℕ) (doFree : Bool) (a : ℕ) : MemM Unit := do
  match ← walk pagetable a false with
  | none => return  -- leaf page table entry allocated?
  | some (pg, i) =>
    let pte ← getPte pg i
    if !pte.has PTE_V then return  -- has physical page been allocated?
    if doFree then kfree (pte2pa pte)
    setPte pg i 0

/-- The loop of `uvmunmap`. -/
def uvmunmapLoop (pagetable : ℕ) (doFree : Bool) : ℕ → ℕ → MemM Unit
  | 0, _ => return
  | n + 1, a => do
    uvmunmapPage pagetable doFree a
    uvmunmapLoop pagetable doFree n (a + PGSIZE)

/-- Remove `npages` of mappings starting from `va`, optionally with their pages. -/
def uvmunmap (pagetable va npages : ℕ) (doFree : Bool) : MemM Unit := do
  if va % PGSIZE ≠ 0 then throw "uvmunmap: not aligned"
  uvmunmapLoop pagetable doFree npages va

/-- Deallocate user pages to bring the size from `oldsz` to `newsz`. -/
def uvmdealloc (pagetable oldsz newsz : ℕ) : MemM ℕ := do
  if newsz ≥ oldsz then return oldsz
  if pgRoundUp newsz < pgRoundUp oldsz then
    let npages := (pgRoundUp oldsz - pgRoundUp newsz) / PGSIZE
    uvmunmap pagetable (pgRoundUp newsz) npages true
  return newsz

/-- The loop of `uvmalloc`, after `oldsz` has been rounded up. -/
def uvmallocLoop (pagetable oldsz newsz : ℕ) (xperm : Pte) : ℕ → ℕ → MemM ℕ
  | 0, _ => return newsz
  | n + 1, a => do
    let mem ← kalloc
    if mem = 0 then
      let _ ← uvmdealloc pagetable a oldsz
      return 0
    memset mem 0
    if (← mappages pagetable a PGSIZE mem (PTE_R ||| PTE_U ||| xperm)) ≠ 0 then
      kfree mem
      let _ ← uvmdealloc pagetable a oldsz
      return 0
    uvmallocLoop pagetable oldsz newsz xperm n (a + PGSIZE)

/-- Allocate entries and memory to grow a process from `oldsz` to `newsz`. -/
def uvmalloc (pagetable oldsz newsz : ℕ) (xperm : Pte) : MemM ℕ := do
  if newsz < oldsz then return oldsz
  let oldsz := pgRoundUp oldsz
  uvmallocLoop pagetable oldsz newsz xperm ((newsz - oldsz + PGSIZE - 1) / PGSIZE) oldsz

/-- The loop of `freewalk` over the entries from `i` on, with the recursive call as `child`. -/
def freewalkLoop (child : ℕ → MemM Unit) (pagetable : ℕ) : ℕ → ℕ → MemM Unit
  | 0, _ => return
  | n + 1, i => do
    let pte ← getPte pagetable i
    if pte.has PTE_V ∧ !pte.has (PTE_R ||| PTE_W ||| PTE_X) then
      child (pte2pa pte)
      setPte pagetable i 0
    else if pte.has PTE_V then throw "freewalk: leaf"
    freewalkLoop child pagetable n (i + 1)

/-- Recursively free page-table pages; the recursion goes at most `depth` levels down. -/
def freewalk : ℕ → ℕ → MemM Unit
  | 0, _ => throw "freewalk: recursion too deep"
  | depth + 1, pagetable => do
    freewalkLoop (freewalk depth) pagetable 512 0
    kfree pagetable

/-- Free user memory pages, then free page-table pages. -/
def uvmfree (pagetable sz : ℕ) : MemM Unit := do
  if sz > 0 then uvmunmap pagetable 0 (pgRoundUp sz / PGSIZE) true
  freewalk 3 pagetable

/-- The loop of `uvmcopy`: the address at which it fails, if it does. -/
def uvmcopyLoop (old new : ℕ) : ℕ → ℕ → MemM (Option ℕ)
  | 0, _ => return none
  | n + 1, i => do
    match ← walk old i false with
    | none => uvmcopyLoop old new n (i + PGSIZE)
    | some (pg, j) =>
      let pte ← getPte pg j
      if !pte.has PTE_V then
        uvmcopyLoop old new n (i + PGSIZE)
      else
        let mem ← kalloc
        if mem = 0 then return some i
        modify fun m => m.write mem ((m.page mem).blit 0 (m.page (pte2pa pte)) 0 PGSIZE)
        if (← mappages new i PGSIZE mem (pteFlags pte)) ≠ 0 then
          kfree mem
          return some i
        uvmcopyLoop old new n (i + PGSIZE)

/-- Copy a parent's memory into a child's page table. -/
def uvmcopy (old new sz : ℕ) : MemM ℤ := do
  match ← uvmcopyLoop old new ((sz + PGSIZE - 1) / PGSIZE) 0 with
  | none => return 0
  | some i =>
    uvmunmap new 0 (i / PGSIZE) true
    return -1

/-- Mark an entry invalid for user access. -/
def uvmclear (pagetable va : ℕ) : MemM Unit := do
  match ← walk pagetable va false with
  | none => throw "uvmclear"
  | some (pg, i) => setPte pg i ((← getPte pg i) &&& ~~~PTE_U)

/-- Whether `va` is mapped. -/
def ismapped (pagetable va : ℕ) : MemM Bool := do
  match ← walk pagetable va false with
  | none => return false
  | some (pg, i) => return (← getPte pg i).has PTE_V

/-- Allocate and map user memory if a process is referencing a page that was lazily allocated. -/
def vmfault (pagetable psz va : ℕ) : MemM ℕ := do
  if va ≥ psz then return 0
  let va := pgRoundDown va
  if ← ismapped pagetable va then return 0
  let mem ← kalloc
  if mem = 0 then return 0
  memset mem 0
  if (← mappages pagetable va PGSIZE mem (PTE_W ||| PTE_U ||| PTE_R)) ≠ 0 then
    kfree mem
    return 0
  return mem

/-- `walkaddr`, and `vmfault` if that finds nothing: how the copy functions find a page. -/
def userPage (pagetable psz va0 : ℕ) : MemM ℕ := do
  let pa0 ← walkaddr pagetable va0
  if pa0 = 0 then vmfault pagetable psz va0 else return pa0

/-- The loop of `copyout`.  Every iteration copies at least one byte. -/
def copyoutLoop (pagetable psz : ℕ) (src : Bytes) : ℕ → ℕ → ℕ → ℕ → MemM ℤ
  | 0, _, _, _ => return 0
  | fuel + 1, dstva, so, len => do
    if len = 0 then return 0
    let va0 := pgRoundDown dstva
    if va0 ≥ MAXVA then return -1
    let pa0 ← userPage pagetable psz va0
    if pa0 = 0 then return -1
    match ← walk pagetable va0 false with
    | none => throw "copyout: null pointer"
    | some (pg, i) =>
      -- forbid copyout over read-only user text pages
      if !(← getPte pg i).has PTE_W then return -1
      let n := min (PGSIZE - (dstva - va0)) len
      modify fun m => m.write pa0 ((m.page pa0).blit (dstva - va0) src so n)
      copyoutLoop pagetable psz src fuel (va0 + PGSIZE) (so + n) (len - n)

/-- Copy `len` bytes from `src` to virtual address `dstva`. -/
def copyout (pagetable psz dstva : ℕ) (src : Bytes) (len : ℕ) : MemM ℤ :=
  copyoutLoop pagetable psz src len dstva 0 len

/-- The loop of `copyin`, with the contents of the destination. -/
def copyinLoop (pagetable psz : ℕ) : ℕ → Bytes → ℕ → ℕ → ℕ → MemM (ℤ × Bytes)
  | 0, dst, _, _, _ => return (0, dst)
  | fuel + 1, dst, srcva, o, len => do
    if len = 0 then return (0, dst)
    let va0 := pgRoundDown srcva
    let pa0 ← userPage pagetable psz va0
    if pa0 = 0 then return (-1, dst)
    let n := min (PGSIZE - (srcva - va0)) len
    let dst := dst.blit o ((← get).page pa0) (srcva - va0) n
    copyinLoop pagetable psz fuel dst (va0 + PGSIZE) (o + n) (len - n)

/-- Copy `len` bytes to `dst` from virtual address `srcva`. -/
def copyin (pagetable psz : ℕ) (dst : Bytes) (srcva len : ℕ) : MemM (ℤ × Bytes) :=
  copyinLoop pagetable psz len dst srcva 0 len

/-- The inner loop of `copyinstr`: copy up to `n` bytes of `src` from offset `so` on, and say whether
a NUL was among them. -/
def copyStr (src : Bytes) : ℕ → Bytes → ℕ → ℕ → Bytes × Bool
  | 0, dst, _, _ => (dst, false)
  | n + 1, dst, o, so =>
    let dst := Function.update dst o (src so)
    if src so = 0 then (dst, true) else copyStr src n dst (o + 1) (so + 1)

/-- The loop of `copyinstr`. -/
def copyinstrLoop (pagetable psz : ℕ) : ℕ → Bytes → ℕ → ℕ → ℕ → MemM (ℤ × Bytes)
  | 0, dst, _, _, _ => return (-1, dst)
  | fuel + 1, dst, srcva, o, max => do
    if max = 0 then return (-1, dst)
    let va0 := pgRoundDown srcva
    let pa0 ← userPage pagetable psz va0
    if pa0 = 0 then return (-1, dst)
    let n := min (PGSIZE - (srcva - va0)) max
    let (dst, gotNull) := copyStr ((← get).page pa0) n dst o (srcva - va0)
    if gotNull then return (0, dst)
    copyinstrLoop pagetable psz fuel dst (va0 + PGSIZE) (o + n) (max - n)

/-- Copy a null-terminated string from user to kernel. -/
def copyinstr (pagetable psz : ℕ) (dst : Bytes) (srcva max : ℕ) : MemM (ℤ × Bytes) :=
  copyinstrLoop pagetable psz max dst srcva 0 max

/-! ## Page tables of processes: `kernel/proc.c` -/

/-- `proc_pagetable`: a user page table with no user memory, but with trampoline and trapframe
pages. -/
def procPagetable (trapframe : ℕ) : MemM ℕ := do
  let pagetable ← uvmcreate
  if pagetable = 0 then return 0
  -- only the supervisor uses the trampoline, so not PTE_U
  if (← mappages pagetable TRAMPOLINE PGSIZE trampoline (PTE_R ||| PTE_X)) < 0 then
    uvmfree pagetable 0
    return 0
  if (← mappages pagetable TRAPFRAME PGSIZE trapframe (PTE_R ||| PTE_W)) < 0 then
    uvmunmap pagetable TRAMPOLINE 1 false
    uvmfree pagetable 0
    return 0
  return pagetable

/-- `proc_freepagetable`. -/
def procFreepagetable (pagetable sz : ℕ) : MemM Unit := do
  uvmunmap pagetable TRAMPOLINE 1 false
  uvmunmap pagetable TRAPFRAME 1 false
  uvmfree pagetable sz

end Xv6
