import Xv6.Kernel.Reach

/-!
# User pointers

`copyout`, `copyin` and `copyinstr` get an address and a length from the user, and nothing is known
about either.  Whatever they are, the functions return, and they read and write no memory but that of
pages the user may access, of which they may map new ones, full of zeros, below the size of the
process (`user_copies_isolated`).
-/

namespace Xv6

open Layout

section

variable [Layout]

/-- The address-space invariant of a process of size `sz` with its trapframe at `tf`: memory holds
the table `T`, and the pages in use are those of the table, those of the user, and `R`. -/
structure SpaceOk (m : Mem) (T : PageTable) (R : Multiset ℕ) (sz tf : ℕ) : Prop where
  space : Space m T R
  table : UserTable T sz tf
  trapframe : tf ∈ R

/-- What a copy function may have done to memory. -/
structure Confined (m : Mem) (T : PageTable) (R : Multiset ℕ) (sz tf : ℕ) (m' : Mem)
    (T' : PageTable) : Prop where
  ok : SpaceOk m' T' R sz tf
  root : T'.root = T.root
  others : ∀ pg, pg ∈ R ∨ ¬IsPhys pg → m'.page pg = m.page pg
  kept : ∀ v e, T.leaf v = some e → T'.leaf v = some e
  mapped : ∀ v e, T.leaf v = none → T'.leaf v = some e →
    v * PGSIZE < sz ∧ e.has PTE_R = true ∧ e.has PTE_W = true ∧ e.has PTE_U = true
  readonly : ∀ v e, T.leaf v = some e → ¬(e.has PTE_U = true ∧ e.has PTE_W = true) →
    ∀ i < PGSIZE, m'.page (pte2pa e) i = m.page (pte2pa e) i

variable {m m' : Mem} {T T' : PageTable} {R : Multiset ℕ} {sz tf : ℕ}

namespace Confined

lemma of_faulted (h : SpaceOk m T R sz tf) (hroot : T'.root = T.root) (hs : Space m' T' R)
    (hf : Frame m m' R) (hft : Faulted T.leaf T'.leaf sz 0 UPAGES)
    (hprot : ∀ v e, v < UPAGES → T.leaf v = some e → ¬(e.has PTE_U = true ∧ e.has PTE_W = true) →
      ∀ i < PGSIZE, T'.view m'.page v i = T.view m.page v i) :
    Confined m T R sz tf m' T' := by
  have hkept : ∀ v e, T.leaf v = some e → T'.leaf v = some e := by
    intro v e he
    rcases hft v with heq | ⟨hnone, -⟩
    · rw [heq, he]
    · exact absurd (he.symm.trans hnone) nofun
  refine ⟨⟨hs, h.table.faulted hft, h.trapframe⟩, hroot,
    fun pg hpg => hpg.elim (hf.on pg) (hf.kernel pg), hkept, fun v e hnone he => ?_,
    fun v e he hno i hi => ?_⟩
  · rcases hft v with heq | ⟨-, -, -, hlt, pa, hpa, hl⟩
    · exact absurd (he.symm.trans (heq.trans hnone)) nofun
    · obtain rfl := Option.some.inj (hl.symm.trans he)
      rw [leafEntry_has (by decide), leafEntry_has (by decide), leafEntry_has (by decide)]
      exact ⟨hlt, by decide, by decide, by decide⟩
  · by_cases hv : v < UPAGES
    · have hview := hprot v e hv he hno i hi
      rwa [PageTable.view_of_some he, PageTable.view_of_some (hkept v e he)] at hview
    · -- The pages above user memory belong to `R`, or to the kernel itself.
      have hcase : v = UPAGES ∨ v = UPAGES + 1 := by
        by_contra hne
        exact absurd (he.symm.trans (h.table.top v (by omega))) nofun
      rcases hcase with rfl | rfl
      · obtain rfl := Option.some.inj (he.symm.trans h.table.trapframe)
        have htf : IsPhys tf :=
          h.space.used.isPhys (Multiset.mem_add.mpr (Or.inr (Multiset.mem_add.mpr (Or.inr h.trapframe))))
        rw [pte2pa_leafEntry htf (by decide), hf.on tf h.trapframe]
      · obtain rfl := Option.some.inj (he.symm.trans h.table.trampoline)
        have hlt := trampoline_le.trans kend_le
        have hpa : pte2pa (leafEntry trampoline (PTE_R ||| PTE_X)) = trampoline := by
          rw [leafEntry, BitVec.or_assoc]
          refine pte2pa_pa2pte_or trampoline_aligned ?_ (isFlags_or_V (by decide))
          unfold PHYSTOP KERNBASE PGSIZE at hlt
          omega
        rw [hpa, hf.kernel]
        intro hphys
        have hle := hphys.le
        have := trampoline_le
        unfold PGSIZE at this
        omega

/-- `copyout` writes only to pages that the user may write. -/
lemma of_stored {va len k : ℕ} {src : Bytes} {done : Prop} (h : SpaceOk m T R sz tf)
    (hroot : T'.root = T.root) (hs : Space m' T' R) (hf : Frame m m' R)
    (hft : Faulted T.leaf T'.leaf sz 0 UPAGES)
    (hreach : Reaches (T.Writable sz) T'.Mapped (Lacks T m') va len done k)
    (hst : Stored m T m' T' va src 0 k) : Confined m T R sz tf m' T' := by
  refine of_faulted h hroot hs hf hft fun v e hv he hno i hi => ?_
  rw [hst v hv i hi, if_neg]
  rintro ⟨h₁, h₂⟩
  have hpage : pageOf (va + (v * PGSIZE + i - va)) = v := by
    rw [show va + (v * PGSIZE + i - va) = i + v * PGSIZE by omega, pageOf,
      Nat.add_mul_div_right _ _ (by decide), Nat.div_eq_of_lt hi, Nat.zero_add]
  obtain ⟨hread, hwrite⟩ := hpage ▸ hreach.ok (v * PGSIZE + i - va) (by omega)
  exact hno ⟨((PageTable.readable_of_some he).mp hread).2, hwrite e he⟩

/-- `copyin` and `copyinstr` write nothing the user can see. -/
lemma of_sameView (h : SpaceOk m T R sz tf) (hroot : T'.root = T.root) (hs : Space m' T' R)
    (hf : Frame m m' (T.userPages + R)) (hft : Faulted T.leaf T'.leaf sz 0 UPAGES)
    (hview : SameView m T m' T') : Confined m T R sz tf m' T' :=
  of_faulted h hroot hs (hf.mono (Multiset.le_add_left _ _)) hft fun v _ hv _ _ i hi => hview v hv i hi

end Confined

/-- The page `v` is one of the user's. -/
def PageTable.UserPage (T : PageTable) (v : ℕ) : Prop := ∃ e, T.leaf v = some e ∧ e.has PTE_U = true

lemma PageTable.Readable.userPage {v : ℕ} (h : T.Readable sz v) (hmapped : T'.Mapped v)
    (hft : Faulted T.leaf T'.leaf sz 0 UPAGES) : T'.UserPage v := by
  obtain ⟨e, he⟩ := Option.ne_none_iff_exists'.mp hmapped
  exact ⟨e, he, ((PageTable.readable_of_some he).mp (hft.readable.mpr h)).2⟩

omit [Layout] in
lemma Reaches.cases {P Q L : ℕ → Prop} {d len k : ℕ} {r : ℤ}
    (h : Reaches P Q L d len (r = 0) k) (hr : r = 0 ∨ r = -1) :
    r = 0 ∧ k = len ∨ r = -1 ∧ k < len := by
  rcases hr with rfl | rfl
  · exact Or.inl ⟨rfl, h.all rfl⟩
  · exact Or.inr ⟨rfl, (h.stop (by decide)).1⟩

omit [Layout] in
lemma Space.Fetched.eq {dst dst' : Bytes} {va k : ℕ} (h : Space.Fetched m T dst dst' va 0 k) (i : ℕ) :
    dst' i = if i < k then T.byte m.page (va + i) else dst i := by
  simpa using h i

omit [Layout] in
/-- What was stored at an address is there. -/
lemma Stored.byte {va k i : ℕ} {src : Bytes} (h : Stored m T m' T' va src 0 k)
    (hv : pageOf (va + i) < UPAGES) (hi : i < k) : T'.byte m'.page (va + i) = src i := by
  have hsplit : pageOf (va + i) * PGSIZE + (va + i) % PGSIZE = va + i := Nat.div_add_mod' ..
  rw [PageTable.byte, h _ hv _ (Nat.mod_lt _ (by decide)), hsplit, if_pos (by omega)]
  congr 1
  omega

/-- **User pointers cannot break isolation.**  Let an address space satisfy its invariant, and let
`va` and `len` be anything.
* `copyout` returns 0 and has stored all of `src`, or it returns -1 and has stored a part.  What it
  has stored is in pages that the user may write, and every other byte that the user sees is as it
  was, a page that is not mapped being a page of zeros.
* `copyin` and `copyinstr` change nothing that the user sees.  What they have fetched are the bytes
  of pages that the user may access, and they write no more than `len` bytes to `dst`; `copyin` has
  fetched all `len` if it returns 0.
* None of them changes a page in use by others or by the kernel, or an existing translation, or a page
  that is not both the user's and writable, and the pages they map are below the size.
* `copyin` after a successful `copyout` to the same range succeeds and yields the same bytes. -/
theorem user_copies_isolated (h : SpaceOk m T R sz tf) (va len : ℕ) :
    (∀ src : Bytes, Returns (copyout T.root sz va src len) (fun r m' => ∃ T' k,
      Confined m T R sz tf m' T' ∧ (r = 0 ∧ k = len ∨ r = -1 ∧ k < len) ∧
      (∀ j < k, T.Writable sz (pageOf (va + j)) ∧ T'.UserPage (pageOf (va + j))) ∧
      ∀ v < UPAGES, ∀ i < PGSIZE, T'.view m'.page v i =
        if va ≤ v * PGSIZE + i ∧ v * PGSIZE + i < va + k then src (v * PGSIZE + i - va)
        else T.view m.page v i) m) ∧
    (∀ dst : Bytes, Returns (copyin T.root sz dst va len) (fun r m' => ∃ T' k,
      Confined m T R sz tf m' T' ∧ SameView m T m' T' ∧ (r.1 = 0 ∧ k = len ∨ r.1 = -1 ∧ k < len) ∧
      (∀ j < k, T'.UserPage (pageOf (va + j))) ∧
      ∀ i, r.2 i = if i < k then T.byte m.page (va + i) else dst i) m) ∧
    (∀ dst : Bytes, Returns (copyinstr T.root sz dst va len) (fun r m' => ∃ T' k,
      Confined m T R sz tf m' T' ∧ SameView m T m' T' ∧ (r.1 = 0 ∨ r.1 = -1) ∧ k ≤ len ∧
      (∀ j < k, T'.UserPage (pageOf (va + j))) ∧
      ∀ i, r.2 i = if i < k then T.byte m.page (va + i) else dst i) m) ∧
    ∀ src dst : Bytes, Returns (do
        let r ← copyout T.root sz va src len
        let q ← copyin T.root sz dst va len
        return (r, q))
      (fun x _ => x.1 = 0 → x.2.1 = 0 ∧ ∀ i < len, x.2.2 i = src i) m := by
  have hsz := h.table.size_le
  refine ⟨fun src => ?_, fun dst => ?_, fun dst => ?_, fun src dst => ?_⟩
  · refine (h.space.copyout hsz h.table.noUser src).imp ?_
    rintro r m' ⟨T', k, hroot, hs, hf, hft, _, hr, hreach, hst⟩
    refine ⟨T', k, .of_stored h hroot hs hf hft hreach hst, hreach.cases hr, fun j hj => ?_, ?_⟩
    · exact ⟨hreach.ok j hj, (hreach.ok j hj).1.userPage (hreach.mapped j hj) hft⟩
    · intro v hv i hi
      rw [hst v hv i hi, Nat.zero_add]
  · refine (h.space.copyin hsz h.table.noUser dst).imp ?_
    rintro r m' ⟨T', k, hroot, hs, hf, hview, hft, _, hr, hreach, hfe⟩
    exact ⟨T', k, .of_sameView h hroot hs hf hft hview, hview, hreach.cases hr,
          fun j hj => (hreach.ok j hj).userPage (hreach.mapped j hj) hft, hfe.eq⟩
  · refine (h.space.copyinstr hsz h.table.noUser dst).imp ?_
    rintro r m' ⟨T', k, hroot, hs, hf, hview, hft, _, hr, hreach, hfe⟩
    exact ⟨T', k, .of_sameView h hroot hs hf hft hview, hview, hr, hreach.le,
          fun j hj => (hreach.ok j hj).userPage (hreach.mapped j hj) hft, hfe.eq⟩
  · simp only [Returns, wp_bind]
    refine (h.space.copyout hsz h.table.noUser src).imp ?_
    rintro r m' ⟨T', k, hroot, hs, hf, hft, _, hr, hreach, hst⟩
    have hU' := (h.table.faulted hft).noUser
    rw [← hroot]
    refine (hs.copyin hsz hU' dst).imp ?_
    rintro q m'' ⟨T'', k', _, _, _, _, _, _, hq, hreach', hfe⟩ hr0
    obtain rfl := hreach.all hr0
    -- Every page is mapped, so `copyin` does not stop.
    have hq0 : q.1 = 0 := by
      by_contra hne
      obtain ⟨hlt, hstop⟩ := hreach'.stop hne
      exact hreach.mapped k' hlt (hstop (hft.readable.mpr (hreach.ok k' hlt).1)).2
    refine ⟨hq0, fun i hi => ?_⟩
    rw [hfe.eq i, hreach'.all hq0, if_pos hi]
    exact hst.byte ((hreach.ok i hi).1.lt_UPAGES hsz h.table.noUser) hi

/-- Every process has such an address space after every run from boot. -/
lemma Kernel.spaceOk {z : Prop} {G : Multiset ℕ} {k : Kernel} {p : ℕ} (h : Reached z G k)
    (hp : p < NPROC) (hst : (k.proc p).state ≠ .unused) : ∃ T R,
    T.root = (k.proc p).pagetable ∧ SpaceOk k.mem T R (k.proc p).sz (k.proc p).trapframe := by
  obtain ⟨tab, P, hinv⟩ := h
  obtain ⟨T, hT, -, hroot, huser⟩ := hinv.mem.tab_isSome hp hst
  exact ⟨T, _, hroot, hinv.mem.focus hp hT, huser, Multiset.mem_cons_self ..⟩

end

local instance layoutIsolation : Layout := smallLayout

/-- The address space of the first process after a run that leaves it running with `n` bytes. -/
lemma Kernel.first_spaceOk {l : List KernelOp} {n : ℕ} {f : Kernel → Bool}
    (h : (run Kernel.step (Kernel.boot smallMem) l).map
      (fun k => ((k.proc 0).sz, (k.proc 0).state, f k)) = some (n, .running, true)) :
    ∃ k T R, run Kernel.step (Kernel.boot smallMem) l = some k ∧ (k.proc 0).sz = n ∧
      T.root = (k.proc 0).pagetable ∧ SpaceOk k.mem T R n (k.proc 0).trapframe ∧ f k = true := by
  obtain ⟨k, hk, h⟩ := Option.map_eq_some_iff.mp h
  simp only [Prod.mk.injEq] at h
  obtain ⟨rfl, hst, hf⟩ := h
  obtain ⟨T, R, hroot, hok⟩ := Kernel.spaceOk (Kernel.reached_run smallMem_used hk)
    (show 0 < NPROC by decide) (by simp [hst])
  exact ⟨k, T, R, hk, rfl, hroot, hok, hf⟩

/-- The first process grows to 6000 bytes without getting a page.  Twelve bytes copied out to a page
boundary and in again are the same. -/
theorem user_copies_isolated_lazy : ∃ k T R, run Kernel.step (Kernel.boot smallMem)
      [.userinit 1, .schedule 0, .sbrk 0 6000 2] = some k ∧
    SpaceOk k.mem T R 6000 (k.proc 0).trapframe ∧
    ∀ src dst : Bytes, Returns (do
        let r ← copyout T.root 6000 4090 src 12
        let q ← copyin T.root 6000 dst 4090 12
        return (r, q))
      (fun x _ => x.1 = 0 → x.2.1 = 0 ∧ ∀ i < 12, x.2.2 i = src i) k.mem := by
  obtain ⟨k, T, R, hk, -, -, hok, -⟩ := Kernel.first_spaceOk (n := 6000) (f := fun _ => true)
    (l := [.userinit 1, .schedule 0, .sbrk 0 6000 2]) (by decide +kernel)
  exact ⟨k, T, R, hk, hok, (user_copies_isolated hok 4090 12).2.2.2⟩

end Xv6
