import Xv6.Kernel.Reach

/-!
# The address space of a process

`sz` bounds what a process has mapped, but it need not be page-aligned, and lazy allocation leaves
pages below it unmapped.  After every run the valid leaves of a page table are below
`PGROUNDUP(sz)`, or they are the trapframe and the trampoline; so the code that maps, unmaps and
frees never meets an entry that it would panic at.
-/

namespace Xv6

/-- The panics of the page-table code. -/
def vmPanics : List String :=
  ["walk", "mappages: va not aligned", "mappages: size not aligned", "mappages: size",
    "mappages: remap", "uvmunmap: not aligned", "freewalk: leaf", "uvmclear"]

namespace Kernel

section

variable [Layout]

/-- What the page table of the process `p`, as it is in memory, maps. -/
structure AddressSpace (k : Kernel) (p : ℕ) : Prop where
  size_le : (k.proc p).sz ≤ TRAPFRAME
  leaf : ∀ v e, k.mem.leafAt (k.proc p).pagetable v = some e →
    v * PGSIZE < pgRoundUp (k.proc p).sz ∨ v * PGSIZE = TRAPFRAME ∨ v * PGSIZE = TRAMPOLINE
  user : ∀ v e, k.mem.leafAt (k.proc p).pagetable v = some e →
    v * PGSIZE < pgRoundUp (k.proc p).sz → IsPhys (pte2pa e) ∧ e.has PTE_R = true
  kernel : ∀ v e, k.mem.leafAt (k.proc p).pagetable v = some e →
    v * PGSIZE = TRAPFRAME ∨ v * PGSIZE = TRAMPOLINE → e.has PTE_U = false

variable {z : Prop} {k : Kernel} {G : Multiset ℕ} {p : ℕ}

omit [Layout] in
lemma mul_lt_pgRoundUp {sz v : ℕ} (h : sz ≤ TRAPFRAME) :
    v * PGSIZE < pgRoundUp sz ↔ v < pagesOf sz := by
  rw [pgRoundUp_eq h]
  exact Nat.mul_lt_mul_right (by decide)

lemma addressSpace (h : Reached z G k) (hp : p < NPROC) (hst : (k.proc p).state ≠ .unused) :
    AddressSpace k p := by
  obtain ⟨tab, P, hinv⟩ := h
  obtain ⟨T, hT, -, -, huser⟩ := hinv.mem.tab_isSome hp hst
  obtain ⟨-, -, -, hleaf⟩ := hinv.table_repr hp hT
  have htop : ∀ {v}, v * PGSIZE = TRAPFRAME ∨ v * PGSIZE = TRAMPOLINE → UPAGES ≤ v := by
    intro v hv
    unfold UPAGES
    unfold TRAPFRAME TRAMPOLINE MAXVA PGSIZE at *
    omega
  refine ⟨huser.size_le, fun v e he => ?_, fun v e he hv => ?_, fun v e he hv => ?_⟩
  all_goals rw [hleaf] at he
  · by_cases hlt : v < UPAGES
    · exact Or.inl ((mul_lt_pgRoundUp huser.size_le).mpr (huser.user v e hlt he).1)
    · have hle : v ≤ UPAGES + 1 := by
        by_contra hgt
        rw [huser.top v (by omega)] at he
        exact absurd he (by simp)
      have hcase : v = UPAGES ∨ v = UPAGES + 1 := by omega
      rcases hcase with rfl | rfl
      · exact Or.inr (Or.inl UPAGES_mul)
      · exact Or.inr (Or.inr (by decide))
  · have hlt : v < UPAGES := by
      have hle : pagesOf (k.proc p).sz ≤ UPAGES := pagesOf_le huser.size_le
      have := (mul_lt_pgRoundUp huser.size_le).mp hv
      omega
    exact (huser.user v e hlt he).2.readable
  · exact huser.noUser v e (htop hv) he

/-- **The address-space invariant** holds for every process after every run from boot, and no
operation can then panic in the page-table code. -/
theorem address_space_invariant {m : Mem} {ops : List KernelOp} (hm : m.Used G)
    (hrun : run step (boot m) ops = some k) :
    (∀ p < NPROC, (k.proc p).state ≠ .unused → AddressSpace k p) ∧
    ∀ op, ∀ e ∈ vmPanics, exec op k ≠ .error e := by
  have h := reached_run hm hrun
  refine ⟨fun p hp hst => addressSpace h hp hst, fun op e he hx => ?_⟩
  have hexp := (exec_spec h op False.elim).of_eq_error hx
  have hdisj : ∀ e ∈ vmPanics, e ∉ expectedPanics := by decide
  exact hdisj e he hexp

end

local instance layoutAddressSpace : Layout := smallLayout

/-- The first process of the machine with 32 pages grows by a page and a half, touches its last
byte and then shrinks to a byte. -/
theorem address_space_invariant_sbrk : ∃ k, run step (boot smallMem)
      [.userinit 1, .schedule 0, .sbrk 0 6000 2, .fault 0 5999, .sbrk 0 (-5999) 1] = some k ∧
      (k.proc 0).sz = 1 ∧ AddressSpace k 0 := by
  have hrun : (run step (boot smallMem)
      [.userinit 1, .schedule 0, .sbrk 0 6000 2, .fault 0 5999, .sbrk 0 (-5999) 1]).map
      (fun k => ((k.proc 0).sz, (k.proc 0).state)) = some (1, .running) := by
    decide +kernel
  obtain ⟨k, hk, h⟩ := Option.map_eq_some_iff.mp hrun
  obtain ⟨hsz, hst⟩ := Prod.mk.inj h
  exact ⟨k, hk, hsz, (address_space_invariant smallMem_used hk).1 0 (by decide) (by simp [hst])⟩

end Kernel
end Xv6
