import Xv6.Kernel.Isolation

/-!
# The break of a process

`sys_sbrk` moves the end of user memory.  It adds a signed 32-bit amount to an unsigned 64-bit size,
the size need not be a multiple of the page size, and pages below it may be absent.  `Brk` says what a
call of it may do, and `sbrk_exact` that it does no more and no less.
-/

namespace Xv6

open Layout

section

variable [Layout] {m m' : Mem} {T T' : PageTable} {R : Multiset ℕ} {sz sz' : ℕ} {n t r : ℤ}

/-- The page at `pg` is on the free list. -/
def Mem.IsFree (m : Mem) (pg : ℕ) : Prop := ∃ l, FreeList m.page m.freelist l ∧ pg ∈ l

lemma Mem.Used.isFree {S : Multiset ℕ} {pg : ℕ} (h : m.Used S) (hpg : pg ∈ physPages) (hS : pg ∉ S) :
    m.IsFree pg := by
  obtain ⟨l, hl, hsum⟩ := h
  rw [← hsum] at hpg
  rcases Multiset.mem_add.mp hpg with hmem | hmem
  · exact ⟨l, hl, hmem⟩
  · exact absurd hmem hS

lemma Mem.Used.mem_physPages {S : Multiset ℕ} {pg : ℕ} (h : m.Used S) (hS : pg ∈ S) :
    pg ∈ physPages := by
  obtain ⟨l, -, hsum⟩ := h
  exact hsum ▸ Multiset.mem_add.mpr (Or.inr hS)

/-- The call `sbrk(n, t)` of a process of `sz` bytes, with memory `m` and the table `T`, returns `r` and
leaves the size `sz'`, memory `m'` and the table `T'`. -/
structure Brk (m : Mem) (T : PageTable) (sz : ℕ) (n t r : ℤ) (m' : Mem) (T' : PageTable) (sz' : ℕ) :
    Prop where
  result : r = -1 ∨ r = sz
  failed : r = -1 → sz' = sz ∧ T'.leaf = T.leaf ∧ SameView m T m' T'
  moved : r = sz → 0 ≤ sz + n → (sz' : ℤ) = sz + n
  kept : r = sz → sz + n < 0 → sz' = sz ∧ T'.leaf = T.leaf ∧ SameView m T m' T'
  -- the history variable is reset before the call
  fails_iff : m.denied = false →
    (r = -1 ↔ 0 < n ∧ (TRAPFRAME < sz + n ∨ t = Kernel.SBRK_EAGER ∧ m'.denied = true))
  grown : r = sz → 0 ≤ n → SameView m T m' T'
  eager : r = sz → 0 < n → t = Kernel.SBRK_EAGER →
    ∀ v, pgRoundUp sz ≤ v * PGSIZE → v * PGSIZE < sz' → ∃ e, T'.leaf v = some e ∧
      e.has PTE_U = true ∧ e.has PTE_R = true ∧ e.has PTE_W = true ∧
      ∀ i < PGSIZE, m'.page (pte2pa e) i = 0
  unmapped : r = sz → n < 0 → 0 ≤ sz + n → ∀ v < UPAGES,
    T'.leaf v = if pgRoundUp sz' ≤ v * PGSIZE then none else T.leaf v
  freed : r = sz → n < 0 → 0 ≤ sz + n → ∀ v < UPAGES, pgRoundUp sz' ≤ v * PGSIZE →
    ∀ e, T.leaf v = some e → m'.IsFree (pte2pa e)
  bytes : r = sz → n < 0 → 0 ≤ sz + n → ∀ a < sz', T'.byte m'.page a = T.byte m.page a

namespace Brk

omit [Layout] in
/-- The call fails. -/
lemma fail (hn : 0 < n) (hl : T'.leaf = T.leaf) (hv : SameView m T m' T')
    (hwhy : m.denied = false → TRAPFRAME < sz + n ∨ t = Kernel.SBRK_EAGER ∧ m'.denied = true) :
    Brk m T sz n t (-1) m' T' sz where
  result := Or.inl rfl
  failed _ := ⟨rfl, hl, hv⟩
  moved h := by omega
  kept h := by omega
  fails_iff hd := ⟨fun _ => ⟨hn, hwhy hd⟩, fun _ => rfl⟩
  grown h := by omega
  eager h := by omega
  unmapped h := by omega
  freed h := by omega
  bytes h := by omega

omit [Layout] in
/-- There is nothing to do. -/
lemma still (hn : n = 0 ∨ sz + n < 0) (hl : T'.leaf = T.leaf) (hv : SameView m T m' T') :
    Brk m T sz n t sz m' T' sz where
  result := Or.inr rfl
  failed h := by omega
  moved _ h := by omega
  kept _ _ := ⟨rfl, hl, hv⟩
  fails_iff _ := ⟨fun h => by omega, fun h => by omega⟩
  grown _ _ := hv
  eager _ h := by omega
  unmapped _ _ h := by omega
  freed _ _ h := by omega
  bytes _ _ h := by omega

/-- The call adds memory. -/
lemma grow (hn : 0 < n) (hsz : (sz' : ℤ) = sz + n) (hmax : sz' ≤ TRAPFRAME) (hv : SameView m T m' T')
    (hmem : t = Kernel.SBRK_EAGER → m'.denied = m.denied ∧
      Fresh T.leaf T'.leaf (pagesOf sz) (pagesOf sz') (PTE_R ||| PTE_U ||| PTE_W))
    (hnone : ∀ v, pagesOf sz ≤ v → v < UPAGES → T.leaf v = none) :
    Brk m T sz n t sz m' T' sz' where
  result := Or.inr rfl
  failed h := by omega
  moved _ _ := hsz
  kept _ h := by omega
  fails_iff hd := by
    refine ⟨fun h => by omega, ?_⟩
    rintro ⟨-, hlt | ⟨ht, hd'⟩⟩
    · omega
    · rw [(hmem ht).1, hd] at hd'
      exact absurd hd' (by decide)
  grown _ _ := hv
  eager _ _ ht v hlo hhi := by
    rw [pgRoundUp_eq (by omega)] at hlo
    have hlo' : pagesOf sz ≤ v := Nat.le_of_mul_le_mul_right hlo (by decide)
    have hhi' : v < pagesOf sz' := by
      unfold pagesOf PGSIZE at *
      omega
    have hU : v < UPAGES := hhi'.trans_le (pagesOf_le hmax)
    obtain ⟨pa, hpa, he⟩ := (hmem ht).2.inside v hlo' hhi'
    refine ⟨_, he, ?_, ?_, ?_, fun i hi => ?_⟩
    · rw [leafEntry_has (by decide)]
      decide
    · rw [leafEntry_has (by decide)]
      decide
    · rw [leafEntry_has (by decide)]
      decide
    · -- the user saw zeros before, and sees the same now
      have hview := hv v hU i hi
      rwa [PageTable.view_of_some he, PageTable.view_of_none (hnone v hlo' hU)] at hview
  unmapped _ h := by omega
  freed _ h := by omega
  bytes _ h := by omega

/-- The call takes memory away. -/
lemma shrink (h : Space m T R) (hn : n < 0) (hsz : (sz' : ℤ) = sz + n) (hmax : sz ≤ TRAPFRAME)
    (hnone : ∀ v, pagesOf sz ≤ v → v < UPAGES → T.leaf v = none) (hnode : T'.node = T.node)
    (hl : T'.leaf = clearLeaves T.leaf (pagesOf sz') (pagesOf sz - pagesOf sz'))
    (hs : Space m' T' R) (hf : Frame m m' (T'.userPages + R)) :
    Brk m T sz n t sz m' T' sz' := by
  have hmono : pagesOf sz' ≤ pagesOf sz := pagesOf_mono (by omega)
  have hround : pgRoundUp sz' = pagesOf sz' * PGSIZE := pgRoundUp_eq (by omega)
  have hleaf : ∀ v < UPAGES, T'.leaf v = if pagesOf sz' ≤ v then none else T.leaf v := by
    intro v hv
    rw [hl, clearLeaves]
    by_cases hlo : pagesOf sz' ≤ v
    · rw [if_pos hlo]
      split
      · rfl
      · exact hnone v (by omega) hv
    · rw [if_neg hlo, if_neg (by omega)]
  have hle : ∀ v, pgRoundUp sz' ≤ v * PGSIZE ↔ pagesOf sz' ≤ v := by
    intro v
    rw [hround]
    exact Nat.mul_le_mul_right_iff (by decide)
  -- The pages in use before are those taken away and those still in use.
  have hpages : T.tablePages + (T.userPages + R) = leafPages T.leaf (pagesOf sz') UPAGES +
      (T'.tablePages + (T'.userPages + R)) := by
    have hbound : pagesOf sz' ≤ UPAGES := hmono.trans (pagesOf_le hmax)
    have hlow : leafPages T'.leaf 0 (pagesOf sz') = leafPages T.leaf 0 (pagesOf sz') :=
      leafPages_congr fun v _ hv => by rw [hleaf v (by omega), if_neg (by omega)]
    have hhigh : leafPages T'.leaf (pagesOf sz') UPAGES = 0 :=
      leafPages_eq_zero fun v hv hU => by rw [hleaf v hU, if_pos hv]
    have htable : T'.tablePages = T.tablePages := by
      rw [PageTable.tablePages, PageTable.tablePages, hnode]
    rw [PageTable.userPages, PageTable.userPages, leafPages_split (Nat.zero_le _) hbound,
      leafPages_split (f := T'.leaf) (Nat.zero_le _) hbound, hlow, hhigh, htable]
    abel
  constructor
  case result => exact Or.inr rfl
  case failed => exact fun h => by omega
  case moved => exact fun _ _ => hsz
  case kept => exact fun _ h => by omega
  case fails_iff => exact fun _ => ⟨fun h => by omega, fun h => by omega⟩
  case grown => exact fun _ h => by omega
  case eager => exact fun _ h => by omega
  case unmapped =>
    intro _ _ _ v hv
    rw [hleaf v hv]
    simp only [hle]
  case freed =>
    intro _ _ _ v hv hlo e he
    refine hs.used.isFree (h.used.mem_physPages ?_) ?_
    · rw [hpages]
      exact Multiset.mem_add.mpr (Or.inl (mem_leafPages.mpr ⟨v, (hle v).mp hlo, hv, e, he, rfl⟩))
    · have hnd := h.used.nodup
      rw [hpages] at hnd
      exact Multiset.disjoint_left.mp (Multiset.nodup_add.mp hnd).2.2
        (mem_leafPages.mpr ⟨v, (hle v).mp hlo, hv, e, he, rfl⟩)
  case bytes =>
    intro _ _ _ a ha
    have hlt : pageOf a < pagesOf sz' := by
      unfold pageOf pagesOf PGSIZE
      omega
    have hU : pageOf a < UPAGES := hlt.trans_le (hmono.trans (pagesOf_le hmax))
    have hsame : T'.leaf (pageOf a) = T.leaf (pageOf a) := by
      rw [hleaf _ hU, if_neg (by omega)]
    rw [PageTable.byte, PageTable.byte,
      PageTable.view_frame (hf.mono (Multiset.le_add_right _ _)) hU, PageTable.view_congr hsame]

end Brk

/-! ## The calls -/

variable {k : Kernel} {p : ℕ}

/-- The kernel with other memory, and another size of the process `p`. -/
def Kernel.setBrk (k : Kernel) (p : ℕ) (m : Mem) (sz : ℕ) : Kernel :=
  { k with mem := m, proc := Function.update k.proc p { k.proc p with sz := sz } }

omit [Layout] in
lemma Kernel.setBrk_self (k : Kernel) (p : ℕ) (m : Mem) :
    k.setBrk p m (k.proc p).sz = { k with mem := m } := by
  rw [setBrk, Function.update_eq_self]

/-- What is true after a call that returned `r`: the process has an address space again, and the call
has done what `Brk` allows. -/
def Kernel.AfterBrk (k : Kernel) (p : ℕ) (T : PageTable) (R : Multiset ℕ) (n t r : ℤ) (k' : Kernel) :
    Prop :=
  ∃ (T' : PageTable) (m' : Mem) (sz' : ℕ), k' = k.setBrk p m' sz' ∧ T'.root = T.root ∧
    SpaceOk m' T' R sz' (k.proc p).trapframe ∧ Frame k.mem m' R ∧
    Brk k.mem T (k.proc p).sz n t r m' T' sz'

section

variable (h : SpaceOk k.mem T R (k.proc p).sz (k.proc p).trapframe)
include h

lemma Kernel.growproc_grow (hroot : T.root = (k.proc p).pagetable) (hn : 0 < n) :
    Returns (growproc p n) (fun r k' => r = -1 ∧ k.AfterBrk p T R n SBRK_EAGER (-1) k' ∨
      r = 0 ∧ k.AfterBrk p T R n SBRK_EAGER (k.proc p).sz k') k := by
  have hsz := h.table.size_le
  have hnone := fun v => h.table.eq_none (v := v)
  simp only [Returns, growproc, wp_bind, wp_get]
  rw [if_pos hn]
  by_cases hmax : (k.proc p).sz + n.toNat > TRAPFRAME
  · rw [wp_ite_pos hmax]
    exact Or.inl ⟨rfl, T, k.mem, _, (k.setBrk_self p k.mem).symm, rfl, h, Frame.refl _ _,
      .fail hn rfl (SameView.refl _ _) fun _ => Or.inl (by omega)⟩
  rw [wp_ite_neg hmax]
  simp only [wp_bind, wp_onMem, ← hroot]
  have halloc := h.space.uvmalloc ((k.proc p).sz + n.toNat)
    (show IsFlags (PTE_R ||| PTE_U ||| PTE_W) by decide) hsz
    (fun v => hnone v) (Or.inl (by omega))
  refine ((halloc.and uvmalloc_honest).and uvmalloc_served).imp ?_
  rintro r m' ⟨⟨⟨T', hr', hs', hf, hv, hres⟩, hhonest⟩, hserved⟩
  have hf' := hf.mono (Multiset.le_add_left R T.userPages)
  rcases hres with ⟨hlt, -⟩ | ⟨hle, rfl, hl⟩ | ⟨hle, rfl, hmax', hfr⟩
  · omega
  · rw [wp_ite_pos rfl]
    refine Or.inl ⟨rfl, T', m', _, (k.setBrk_self p m').symm, hr', ⟨hs', h.table.congr hl, h.trapframe⟩,
      hf', .fail hn hl hv fun _ => Or.inr ⟨rfl, denied_of_not hhonest fun hall => ?_⟩⟩
    exact absurd (hall.2 hle) (by omega)
  · have hne : (k.proc p).sz + n.toNat ≠ 0 := by omega
    rw [wp_ite_neg hne]
    refine Or.inr ⟨rfl, T', m', _, rfl, hr', ⟨hs', ?_, h.trapframe⟩, hf', ?_⟩
    · exact h.table.fresh hle hmax' (by decide) (by decide) hfr
    · exact .grow hn (by omega) hmax' hv (fun _ => ⟨hserved hne, hfr⟩) fun v => hnone v

lemma Kernel.growproc_shrink
    (hroot : T.root = (k.proc p).pagetable) (hlo : -2 ^ 31 ≤ n) (hn : n < 0) (t : ℤ) :
    Returns (growproc p n) (fun r k' => r = 0 ∧ k.AfterBrk p T R n t (k.proc p).sz k') k := by
  have hsz := h.table.size_le
  have hlt : (k.proc p).sz < 2 ^ 38 := lt_of_le_of_lt hsz (by decide)
  simp only [Returns, growproc, wp_bind, wp_get]
  rw [if_neg (by omega), if_pos hn]
  simp only [wp_bind, wp_onMem, ← hroot]
  refine (h.space.uvmdealloc hsz).imp ?_
  rintro r m' ⟨T', hnode, hr, hl, hs', hf⟩
  have hroot' := PageTable.root_eq hnode
  have hf' := hf.mono (Multiset.le_add_left R T'.userPages)
  by_cases hneg : (k.proc p).sz + n < 0
  · -- the sum wraps around, to a number above every size
    have hbig : (k.proc p).sz ≤ (((k.proc p).sz + n) % 2 ^ 64).toNat := by omega
    have hl' : T'.leaf = T.leaf := hl.trans (clearLeaves_eq_self fun v _ _ => by
      have := pagesOf_mono hbig
      omega)
    have hview : SameView k.mem T m' T' := by
      refine SameView.of_frame hl' (hf.mono ?_)
      rw [PageTable.userPages, PageTable.userPages, hl']
      exact Multiset.le_add_right _ _
    rw [Nat.min_eq_left hbig] at hr
    subst hr
    exact ⟨rfl, T', m', _, rfl, hroot', ⟨hs', h.table.congr hl', h.trapframe⟩, hf',
      .still (Or.inr hneg) hl' hview⟩
  · have hsmall : ((((k.proc p).sz + n) % 2 ^ 64).toNat : ℤ) = (k.proc p).sz + n := by omega
    rw [Nat.min_eq_right (by omega)] at hr
    subst hr
    exact ⟨rfl, T', m', _, rfl, hroot', ⟨hs', h.table.shrink (by omega) hl, h.trapframe⟩, hf',
      .shrink h.space hn hsmall hsz (fun v => h.table.eq_none) hnode hl hs' hf⟩

end

/-- **`sbrk` changes the break exactly as asked or not at all.**  Let a process have an address space
that satisfies its invariant, and let it call `sbrk` with any amount that is an `int`, in either mode,
while memory may run out at any time.  Then the call returns -1, and the size, the translation and what
the user sees are as they were; or it returns the old size, and
* the new size is `n` more, or the same if that would be negative;
* after eager growth the pages from the old size, rounded up, to the new one are mapped, writable and
  zero;
* after shrinking the pages from the new size on, rounded up, and no others, are unmapped and free, and
  the bytes below the new size are as they were.
It fails only for a positive `n`, if and only if the new size would be above `TRAPFRAME` or, in eager
mode, memory runs out. -/
theorem sbrk_exact (h : SpaceOk k.mem T R (k.proc p).sz (k.proc p).trapframe)
    (hroot : T.root = (k.proc p).pagetable) (hint : -2 ^ 31 ≤ n ∧ n < 2 ^ 31) (t : ℤ) :
    Returns (Kernel.sysSbrk p n t) (fun r k' => ∃ (T' : PageTable) (m' : Mem) (sz' : ℕ),
      k' = k.setBrk p m' sz' ∧ T'.root = T.root ∧ SpaceOk m' T' R sz' (k.proc p).trapframe ∧
      Frame k.mem m' R ∧ Brk k.mem T (k.proc p).sz n t r m' T' sz') k := by
  have hsz := h.table.size_le
  have hlt : (k.proc p).sz < 2 ^ 38 := lt_of_le_of_lt hsz (by decide)
  have hsame : n = 0 → k.AfterBrk p T R n t (k.proc p).sz k := fun hn =>
    ⟨T, k.mem, _, (k.setBrk_self p k.mem).symm, rfl, h, Frame.refl _ _,
      .still (Or.inl hn) rfl (SameView.refl _ _)⟩
  simp only [Returns, Kernel.sysSbrk, wp_bind, wp_get]
  by_cases hneg : n < 0
  · rw [if_pos (Or.inr hneg)]
    simp only [wp_bind]
    refine (Kernel.growproc_shrink h hroot hint.1 hneg t).imp ?_
    rintro r k' ⟨hr, hk'⟩
    rw [wp_ite_neg (by omega)]
    exact hk'
  by_cases ht : t = Kernel.SBRK_EAGER
  · subst ht
    rw [if_pos (Or.inl rfl)]
    simp only [wp_bind]
    by_cases hn : 0 < n
    · refine (Kernel.growproc_grow h hroot hn).imp fun r k' hr => ?_
      rcases hr with ⟨rfl, hk'⟩ | ⟨rfl, hk'⟩
      · rw [wp_ite_pos (by decide)]
        exact hk'
      · rw [wp_ite_neg (by decide)]
        exact hk'
    · rw [Kernel.growproc]
      simp only [wp_bind, wp_get]
      rw [if_neg hn, if_neg hneg]
      exact hsame (by omega)
  · rw [if_neg (not_or.mpr ⟨ht, hneg⟩), wp_ite_neg (by omega)]
    by_cases hmax : TRAPFRAME < (k.proc p).sz + n
    · rw [wp_ite_pos (by omega)]
      exact ⟨T, k.mem, _, (k.setBrk_self p k.mem).symm, rfl, h, Frame.refl _ _,
        .fail (by omega) rfl (SameView.refl _ _) fun _ => Or.inl hmax⟩
    · rw [wp_ite_neg (by omega)]
      simp only [wp_bind, Kernel.wp_setProc, wp_pure]
      have hsz' : (((k.proc p).sz + n.toNat) % 2 ^ 64 : ℕ) = (k.proc p).sz + n.toNat := by omega
      by_cases hn : 0 < n
      · refine ⟨T, k.mem, (k.proc p).sz + n.toNat, by rw [hsz']; rfl, rfl,
          ⟨h.space, h.table.grow (by omega) (by omega), h.trapframe⟩, Frame.refl _ _, ?_⟩
        exact .grow hn (by omega) (by omega) (SameView.refl _ _) (fun h' => absurd h' ht)
          fun v => h.table.eq_none
      · have hzero : n.toNat = 0 := by omega
        rw [hsz', hzero, Nat.add_zero, Function.update_eq_self]
        exact hsame (by omega)

end

local instance layoutBrk : Layout := smallLayout

/-- The first process gives back more than it has, and then the size is as it was. -/
theorem sbrk_exact_negative : ∃ k T R, run Kernel.step (Kernel.boot smallMem)
      [.userinit 1, .schedule 0, .sbrk 0 6000 2] = some k ∧
    SpaceOk k.mem T R 6000 (k.proc 0).trapframe ∧
    Returns (Kernel.sysSbrk 0 (-6001) 1) (fun r k' => r = 6000 → (k'.proc 0).sz = 6000) k := by
  obtain ⟨k, T, R, hk, hsz, hroot, hok, -⟩ := Kernel.first_spaceOk (n := 6000) (f := fun _ => true)
    (l := [.userinit 1, .schedule 0, .sbrk 0 6000 2]) (by decide +kernel)
  refine ⟨k, T, R, hk, hok, ?_⟩
  refine (sbrk_exact (hsz.symm ▸ hok) hroot (show -2 ^ 31 ≤ (-6001 : ℤ) ∧ (-6001 : ℤ) < 2 ^ 31 by decide) 1).imp ?_
  rintro r k' ⟨T', m', sz', hk', _, _, _, hbrk⟩ hr
  rw [hsz] at hbrk
  rw [hk', Kernel.setBrk]
  dsimp only
  rw [Function.update_self]
  exact (hbrk.kept hr (by decide)).1

end Xv6
