import Xv6.Kernel.Reach

/-!
# The arguments of a new program

`sys_exec` fetches the arguments of the new program from the memory of the old one, and `kexec` puts
them on the new stack.  What is fetched is at most `MAXARG - 1` strings, each in a page (`ArgsOk`), and
`exec_argument_stack` says what `kexec` makes of them.
-/

namespace Xv6

section

variable [Layout] {k : Kernel} {p : ℕ}

/-- No subtraction from the stack pointer wraps around: a string is pushed only if those before it were
in the stack, and then there is more below the stack pointer than the string takes. -/
structure NoWrap (sz : ℕ) (argv : List Bytes) : Prop where
  string : ∀ i (hi : i < argv.length), stringBytes (argv.take i) ≤ USERSTACK * PGSIZE →
    strlen argv[i] + 1 ≤ sz - stringBytes (argv.take i)
  array : stringBytes argv ≤ USERSTACK * PGSIZE → (argv.length + 1) * 8 ≤ sz - stringBytes argv

omit [Layout] in
lemma NoWrap.of_argsOk {sz : ℕ} {argv : List Bytes} (h : ArgsOk argv)
    (hsz : (USERSTACK + 1) * PGSIZE ≤ sz) : NoWrap sz argv := by
  have hpage : USERSTACK * PGSIZE + PGSIZE ≤ sz := by rwa [← Nat.succ_mul]
  have hcount : (argv.length + 1) * 8 ≤ PGSIZE :=
    le_trans (Nat.mul_le_mul_right 8 (Nat.succ_le_of_lt h.count)) (by decide)
  refine ⟨fun i hi hle => ?_, fun hle => by omega⟩
  have := h.string _ (List.getElem_mem hi)
  omega

/-- The process `p` runs a new program of `sz` bytes, with its arguments on the stack at `sp`; below
the stack is the memory `image`. -/
structure Started (k' : Kernel) (p sz sp : ℕ) (argv : List Bytes) (image : Bytes) (T' : PageTable) :
    Prop where
  size : (k'.proc p).sz = sz
  root : T'.root = (k'.proc p).pagetable
  space : ∃ R, Space k'.mem T' R
  table : UserTable T' sz (k'.proc p).trapframe
  a1 : (k'.mem.page (k'.proc p).trapframe).get64 120 = BitVec.ofNat 64 sp
  stackPointer : (k'.mem.page (k'.proc p).trapframe).get64 48 = BitVec.ofNat 64 sp
  stack : ArgStack (T'.byte k'.mem.page) sz sp argv
  guard : ∃ e, T'.leaf (pageOf (sz - (USERSTACK + 1) * PGSIZE)) = some e ∧ e.has PTE_U = false
  below : ∀ a < sz - USERSTACK * PGSIZE, T'.byte k'.mem.page a = image a

lemma Started.of_committed {k k' : Kernel} {sz₁ sp : ℕ} {argv : List Bytes} {m₁ m₂ : Mem}
    {T₁ T₂ : PageTable} {q : ℕ × Option ℕ} (hc : Kernel.Committed k p q.1 sp m₂ T₂ k')
    (hq : q.2 = some sp) (hX : StackMade m₁ T₁ sz₁ argv q m₂ T₂) :
    Started k' p q.1 sp argv (T₁.byte m₁.page) T₂ := by
  obtain ⟨R, hs, hu⟩ := hc.space
  have hpage : ∀ a < q.1, pageOf a < UPAGES := fun a ha =>
    (pageOf_lt_pagesOf ha).trans_le (pagesOf_le hu.size_le)
  refine ⟨hc.size, hc.root.symm, ⟨R, hs⟩, hc.trapframe ▸ hu, ?_, ?_, ?_, hX.guard sp hq, fun a ha => ?_⟩
  · rw [hc.trapframe]
    exact hc.a1
  · rw [hc.trapframe]
    exact hc.sp
  · exact (hX.stack sp hq).congr fun a ha => hc.byte a (hpage a ha)
  · rw [hc.byte a (hpage a (by omega))]
    exact hX.below a ha

/-- **`exec` lays out the argument stack.**  Let `p` be a process of a kernel after any run.
* The arguments that `sys_exec` fetches, if it gets to the end of them, are less than `MAXARG` strings,
  each shorter than a page.
* For every list of such arguments and every file, `kexec` returns -1 if it cannot load the file; else
  it returns -1 if and only if there is no memory for the stack or the arguments do not fit on it.  No
  subtraction from the stack pointer wraps around.
* If it does not return -1 then it returns the number of arguments, and the process has the stack of
  `ArgStack`, at the address in `a1` and `sp`.  Below the stack is a page that the user cannot access,
  and below that memory is as the program was loaded. -/
theorem exec_argument_stack {z : Prop} {G : Multiset ℕ} (h : Reached z G k) (hp : p < NPROC)
    (hst : (k.proc p).state ≠ .unused) :
    (∀ uargv, Returns (Kernel.fetchArgs p uargv MAXARG 0 []) (fun r k' => r.2 = true →
      ArgsOk (r.1.map k'.mem.page)) k) ∧
    ∀ (file : Option ExecFile) (argv : List Bytes), ArgsOk argv →
      Returns (Kernel.kexec p file argv) (fun r k' => ∃ o m₁,
        execImage (k.proc p).trapframe file k.mem = .ok (o, m₁) ∧ (o = none → r = -1) ∧
        ∀ pt sz₁, o = some (pt, sz₁) → ∃ sz m₂,
          uvmalloc pt (pgRoundUp sz₁) (pgRoundUp sz₁ + (USERSTACK + 1) * PGSIZE) PTE_W m₁ = .ok (sz, m₂) ∧
          (r = -1 ↔ sz = 0 ∨ ¬ArgsFit argv) ∧ (sz ≠ 0 → NoWrap sz argv) ∧
          (r ≠ -1 → r = argv.length ∧ ∃ T₁ T' sp, T₁.root = pt ∧ (∃ S, Space m₁ T₁ S) ∧
            Started k' p sz sp argv (T₁.byte m₁.page) T')) k := by
  obtain ⟨tab, P, hinv⟩ := h
  refine ⟨fun uargv => ?_, fun file argv hargs => ?_⟩
  · have hinv' : KernelInv z k tab P 0 ((([] : List ℕ) : Multiset ℕ) + G) := by simpa using hinv
    refine (Kernel.fetchArgs_spec hp MAXARG hinv' hst (by simp [Kernel.Strings]) rfl).imp ?_
    rintro r k' ⟨-, -, -, -, hargs⟩
    exact hargs
  · refine (Kernel.kexec_spec hinv hp hst file hargs).imp ?_
    rintro r k' ⟨_, o, m₁, hrun, hres⟩
    refine ⟨o, m₁, hrun, ?_⟩
    rcases hres with ⟨rfl, rfl⟩ | ⟨T₁, sz₁, q, m₂, T₂, rfl, hs₁, hX, hres⟩
    · exact ⟨fun _ => rfl, by simp⟩
    refine ⟨by simp, ?_⟩
    rintro pt sz₀ heq
    obtain ⟨rfl, rfl⟩ := Prod.mk.inj (Option.some.inj heq)
    obtain ⟨sz, m₃, hrun₃, hsz, hnone⟩ := hX.fails
    refine ⟨sz, m₃, hrun₃, ?_, fun h0 => .of_argsOk hargs (hsz.resolve_left h0).2, fun hne => ?_⟩
    · rw [← hnone]
      rcases hres with ⟨hq, rfl⟩ | ⟨sp, hq, rfl, -⟩
      · exact iff_of_true rfl hq
      · refine iff_of_false (by omega) ?_
        rw [hq]
        exact Option.some_ne_none _
    · rcases hres with ⟨-, rfl⟩ | ⟨sp, hq, rfl, hc⟩
      · exact absurd rfl hne
      · have h0 : sz ≠ 0 := by
          rintro rfl
          exact absurd (hnone.mpr (Or.inl rfl)) (by rw [hq]; exact Option.some_ne_none _)
        obtain ⟨hqsz, -⟩ := hsz.resolve_left h0
        exact ⟨rfl, T₁, T₂, sp, rfl, hs₁, hqsz ▸ .of_committed hc hq hX⟩

end

local instance layoutExecArgs : Layout := smallLayout

/-- An executable of 124 bytes, with one segment that takes sixteen bytes of memory, four of them from
the file. -/
def tinyFile : ExecFile where
  bytes off i := match off + i with
    | 0 => 0x7F | 1 => 0x45 | 2 => 0x4C | 3 => 0x46  -- magic
    | 32 => 64 | 56 => 1  -- phoff, phnum
    | 64 => 1 | 68 => 5 | 72 => 120 | 96 => 4 | 104 => 16  -- type, flags, off, filesz, memsz
    | _ => 0
  readi off n := min n (124 - off)
  readi_le _ _ := min_le_left _ _

/-- The arguments `"echo"` and `"hi"`. -/
def echoArgs : List Bytes :=
  [fun i => [101, 99, 104, 111].getD i 0, fun i => [104, 105].getD i 0]

/-- The first process starts a program of one page with the arguments `"echo"` and `"hi"`: the stack is
the third page, after a guard page. -/
theorem exec_argument_stack_echo : ∃ k k', run Kernel.step (Kernel.boot smallMem)
      [.userinit 1, .schedule 0] = some k ∧ ArgsOk echoArgs ∧
    Kernel.kexec 0 (some tinyFile) echoArgs k = .ok (2, k') ∧
    ∃ (sp : ℕ) (T₁ T' : PageTable) (m₁ : Mem),
      Started k' 0 (3 * PGSIZE) sp echoArgs (T₁.byte m₁.page) T' := by
  -- The program can be loaded, and there is memory for the stack.
  have hrun : (run Kernel.step (Kernel.boot smallMem) [.userinit 1, .schedule 0]).map
      (fun k => ((k.proc 0).state,
        (execImage (k.proc 0).trapframe (some tinyFile) k.mem).toOption.bind fun a => a.1.bind
          fun q => (uvmalloc q.1 (pgRoundUp q.2) (pgRoundUp q.2 + (USERSTACK + 1) * PGSIZE) PTE_W
            a.2).toOption.map Prod.fst)) = some (.running, some (3 * PGSIZE)) := by
    decide +kernel
  obtain ⟨k, hk, h⟩ := Option.map_eq_some_iff.mp hrun
  obtain ⟨hst, hmem⟩ := Prod.mk.inj h
  have hargs : ArgsOk echoArgs := ⟨by decide, by decide⟩
  have hfit : ArgsFit echoArgs := by decide
  obtain ⟨r, k', hx, o, m₁, himage, -, hsome⟩ := ((exec_argument_stack
    (Kernel.reached_run smallMem_used hk) (show 0 < NPROC by decide) (by simp [hst])).2
    (some tinyFile) _ hargs).exists_eq
  rw [himage] at hmem
  cases o with
  | none => simp [Except.toOption] at hmem
  | some q =>
    obtain ⟨sz, m₂, halloc, hiff, -, hstart⟩ := hsome q.1 q.2 rfl
    obtain rfl : sz = 3 * PGSIZE := by simpa [Except.toOption, halloc] using hmem
    have hr : r ≠ -1 := fun hr => (hiff.mp hr).elim (by decide) (absurd hfit)
    obtain ⟨rfl, T₁, T', sp, -, -, hstarted⟩ := hstart hr
    exact ⟨k, k', hk, hargs, hx, sp, T₁, T', m₁, hstarted⟩

end Xv6
