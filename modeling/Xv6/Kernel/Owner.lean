import Xv6.Kernel.Reach

/-!
# Every page has one owner

The places that may own a physical page are listed by `PageUse`, and `Kernel.pageAt` reads the page
at a place off the memory and the tables of the kernel.  After every run the pages that the
allocator manages are exactly the pages at these places, each at one of them: the multiset
`physPages` is gathered from the places, and it has no duplicates.
-/

namespace Xv6

open Finset

/-- What a page of physical memory may be used for. -/
inductive PageUse
  | free (n : ℕ)  -- the `n`-th page of the free list
  | table (p : ℕ) (x : TPos)  -- a page of the page table of slot `p`
  | user (p v : ℕ)  -- the page at address `v * PGSIZE` of slot `p`
  | trapframe (p : ℕ)
  | pipe (pg : ℕ)  -- the page itself is a `struct pipe`
  | boot (pg : ℕ)  -- allocated before the first process
  deriving DecidableEq

/-- The page in use at a place, with `boot` the pages allocated at boot. -/
def Kernel.pageAt (k : Kernel) (boot : Multiset ℕ) : PageUse → Option ℕ
  | .free n => k.mem.nthFree n
  | .table p x => if p < NPROC ∧ (k.proc p).pagetable ≠ 0 then
      k.mem.nodeAt (k.proc p).pagetable x else none
  | .user p v => if (p < NPROC ∧ (k.proc p).pagetable ≠ 0) ∧ v < UPAGES then
      (k.mem.leafAt (k.proc p).pagetable v).map pte2pa else none
  | .trapframe p => if p < NPROC ∧ (k.proc p).trapframe ≠ 0 then some (k.proc p).trapframe else none
  | .pipe pg => if ∃ f < NFILE, (k.file f).ref ≠ 0 ∧ (k.file f).type = .pipe ∧
      (k.file f).pipe = pg then some pg else none
  | .boot pg => if pg ∈ boot then some pg else none

/-- The places, by bounds for their indices. -/
@[irreducible] def PageUse.places (nfree procs nodes pages : ℕ) (pipes held : Finset ℕ) :
    Finset PageUse :=
  (range nfree).image .free ∪
    ((range procs ×ˢ TPos.below nodes).image (fun px => .table px.1 px.2) ∪
      ((range procs ×ˢ Ico 0 pages).image (fun pv => .user pv.1 pv.2) ∪
        ((range procs).image .trapframe ∪ (pipes.image .pipe ∪ held.image .boot))))

namespace PageUse

variable {nfree procs nodes pages p v n pg : ℕ} {x : TPos} {pipes held : Finset ℕ}

@[simp] lemma free_mem : .free n ∈ places nfree procs nodes pages pipes held ↔ n < nfree := by
  simp [places]

@[simp] lemma table_mem : .table p x ∈ places nfree procs nodes pages pipes held ↔
    p < procs ∧ x ∈ TPos.below nodes := by
  simp [places]

@[simp] lemma user_mem : .user p v ∈ places nfree procs nodes pages pipes held ↔
    p < procs ∧ v < pages := by
  simp [places]

@[simp] lemma trapframe_mem :
    .trapframe p ∈ places nfree procs nodes pages pipes held ↔ p < procs := by
  simp [places]

@[simp] lemma pipe_mem : .pipe pg ∈ places nfree procs nodes pages pipes held ↔ pg ∈ pipes := by
  simp [places]

@[simp] lemma boot_mem : .boot pg ∈ places nfree procs nodes pages pipes held ↔ pg ∈ held := by
  simp [places]

/-- The pages at all places, kind by kind. -/
lemma gather_places (f : PageUse → Option ℕ) :
    gather (places nfree procs nodes pages pipes held) f =
      gather (range nfree) (fun n => f (.free n)) +
      (∑ p ∈ range procs, gather (TPos.below nodes) (fun x => f (.table p x)) +
      (∑ p ∈ range procs, gather (Ico 0 pages) (fun v => f (.user p v)) +
      (gather (range procs) (fun p => f (.trapframe p)) +
      (gather pipes (fun pg => f (.pipe pg)) + gather held (fun pg => f (.boot pg)))))) := by
  unfold places
  have hinj₂ : Function.Injective fun px : ℕ × TPos => table px.1 px.2 := fun a b h => by
    simpa [Prod.ext_iff] using h
  have hinj₃ : Function.Injective fun pv : ℕ × ℕ => user pv.1 pv.2 := fun a b h => by
    simpa [Prod.ext_iff] using h
  rw [gather_union, gather_union, gather_union, gather_union, gather_union,
    gather_image (fun _ _ => free.inj), gather_image hinj₂, gather_image hinj₃,
    gather_image (fun _ _ => trapframe.inj), gather_image (fun _ _ => pipe.inj),
    gather_image (fun _ _ => boot.inj), gather_product, gather_product]
  all_goals
    simp only [Finset.disjoint_left, mem_union, mem_image]
    rintro u ⟨a, -, rfl⟩ h
    simp at h

end PageUse

/-! ## The owners -/

section

variable [Layout] {z : Prop} {k : Kernel} {G : Multiset ℕ} {tab : ℕ → Option PageTable}
  {P : Finset ℕ} {p : ℕ}

namespace KernelInv

section

variable (h : KernelInv z k tab P 0 G)
include h

/-- What the places of a slot hold. -/
lemma gather_slot (hp : p < NPROC) : gather (TPos.below 512) (fun x => k.pageAt G (.table p x)) +
      (gather (Ico 0 UPAGES) (fun v => k.pageAt G (.user p v)) +
        single (k.pageAt G (.trapframe p))) = slotPages (k.proc p) (tab p) := by
  cases hT : tab p with
  | none =>
    have hslot := h.mem.slot p hp
    rw [hT] at hslot
    obtain ⟨-, hpt, htf, -⟩ := hslot
    have h₁ : ∀ x, k.pageAt G (.table p x) = none := fun x => if_neg fun hx => hx.2 hpt
    have h₂ : ∀ v, k.pageAt G (.user p v) = none := fun v => if_neg fun hv => hv.1.2 hpt
    have h₃ : k.pageAt G (.trapframe p) = none := if_neg fun hx => hx.2 htf
    rw [gather_eq_zero fun x _ => h₁ x, gather_eq_zero fun v _ => h₂ v, h₃]
    rfl
  | some T =>
    obtain ⟨hpt, htf, hnode, hleaf⟩ := h.table_repr hp hT
    have h₁ : ∀ x, k.pageAt G (.table p x) = T.node x := fun x =>
      (if_pos ⟨hp, hpt⟩).trans (hnode x)
    have h₂ : ∀ v ∈ Ico 0 UPAGES, k.pageAt G (.user p v) = (T.leaf v).map pte2pa := fun v hv =>
      (if_pos ⟨⟨hp, hpt⟩, (mem_Ico.mp hv).2⟩).trans (by rw [hleaf])
    have h₃ : k.pageAt G (.trapframe p) = some (k.proc p).trapframe := if_pos ⟨hp, htf⟩
    rw [gather_congr fun x _ => h₁ x, gather_congr h₂, h₃]
    rfl

lemma mem_pipes {pg : ℕ} : pg ∈ P ↔
    ∃ f < NFILE, (k.file f).ref ≠ 0 ∧ (k.file f).type = .pipe ∧ (k.file f).pipe = pg := by
  rw [h.files.pages]
  constructor
  · intro hpg
    obtain ⟨x, hx⟩ := Option.ne_none_iff_exists'.mp hpg
    obtain ⟨w, hw⟩ := h.files.used pg x hx
    obtain ⟨f, hf, htype, hpipe, -⟩ := (h.files.isOpen pg w).mp ⟨x, hx, hw⟩
    refine ⟨f, hf, fun hfree => ?_, htype, hpipe⟩
    rw [h.files.free f hf hfree] at htype
    exact absurd htype (by simp)
  · rintro ⟨f, hf, -, htype, hpipe⟩
    obtain ⟨x, hx, -⟩ := (h.files.isOpen pg _).mpr ⟨f, hf, htype, hpipe, rfl⟩
    simp [hx]

/-- All pages of the allocator are at some place. -/
lemma gather_pageAt : ∃ n,
    gather (PageUse.places n NPROC 512 UPAGES P G.toFinset) (k.pageAt G) = physPages ∧
      ∀ i, k.mem.nthFree i ≠ none → i < n := by
  have hnd := h.mem.used.nodup
  obtain ⟨l, hl, hsum⟩ := h.mem.used
  have hfree := nthFree_eq (fun q hq => (isPhys_of_mem (by rw [← hsum]; simp [hq])).pos.ne') hl
  refine ⟨l.length, ?_, fun i hi => ?_⟩
  · have h₁ : gather (range l.length) (fun i => k.pageAt G (.free i)) = l := by
      rw [← gather_range_getElem]
      exact gather_congr fun i _ => hfree i
    have h₂ : gather P (fun pg => k.pageAt G (.pipe pg)) = P.val :=
      gather_self fun pg hpg => by rw [Kernel.pageAt, if_pos (h.mem_pipes.mp hpg)]
    have h₃ : gather G.toFinset (fun pg => k.pageAt G (.boot pg)) = G := by
      have hG : G.Nodup := (Multiset.nodup_add.mp (Multiset.nodup_add.mp hnd).2.1).2.1
      have hself : ∀ pg ∈ G.toFinset, k.pageAt G (.boot pg) = some pg := fun pg hpg =>
        if_pos (Multiset.mem_toFinset.mp hpg)
      rw [gather_self hself, Multiset.toFinset_val, hG.dedup]
    have h₄ := sum_congr (rfl : range NPROC = _) fun p hp => h.gather_slot (mem_range.mp hp)
    rw [sum_add_distrib, sum_add_distrib] at h₄
    rw [PageUse.gather_places, h₁, h₂, h₃, ← hsum, ← h₄, gather]
    abel
  · rw [hfree] at hi
    exact (List.getElem?_eq_some_iff.mp (Option.ne_none_iff_exists'.mp hi).choose_spec).1

/-- Nothing is at a place out of bounds. -/
lemma mem_places {n : ℕ} (hn : ∀ i, k.mem.nthFree i ≠ none → i < n)
    {u : PageUse} {pg : ℕ} (hu : k.pageAt G u = some pg) :
    u ∈ PageUse.places n NPROC 512 UPAGES P G.toFinset := by
  cases u with
  | free i => exact PageUse.free_mem.mpr (hn i (by rw [show k.mem.nthFree i = _ from hu]; simp))
  | table p x =>
    simp only [Kernel.pageAt, Option.ite_none_right_eq_some] at hu
    exact PageUse.table_mem.mpr ⟨hu.1.1, Mem.nodeAt_mem_below hu.2⟩
  | user p v =>
    simp only [Kernel.pageAt, Option.ite_none_right_eq_some] at hu
    exact PageUse.user_mem.mpr ⟨hu.1.1.1, hu.1.2⟩
  | trapframe p =>
    simp only [Kernel.pageAt, Option.ite_none_right_eq_some] at hu
    exact PageUse.trapframe_mem.mpr hu.1.1
  | pipe pg' =>
    simp only [Kernel.pageAt, Option.ite_none_right_eq_some] at hu
    exact PageUse.pipe_mem.mpr (h.mem_pipes.mpr hu.1)
  | boot pg' =>
    simp only [Kernel.pageAt, Option.ite_none_right_eq_some] at hu
    exact PageUse.boot_mem.mpr (Multiset.mem_toFinset.mpr hu.1)

end

end KernelInv

namespace Kernel

/-- **Every page has exactly one owner** after every run from boot, whichever calls of `kalloc`
fail in it; and what is freed is always a page. -/
theorem page_has_one_owner {m : Mem} {ops : List KernelOp} (hm : m.Used G)
    (hrun : run step (boot m) ops = some k) :
    (∀ pg ∈ physPages, ∃! u, k.pageAt G u = some pg) ∧ ∀ op, exec op k ≠ .error "kfree" := by
  refine ⟨fun pg hpg => ?_, fun op he => ?_⟩
  swap
  · exact absurd ((exec_spec (reached_run hm hrun) op False.elim).of_eq_error he) (by decide)
  obtain ⟨tab, P, hinv⟩ := reached_run hm hrun
  obtain ⟨n, hgather, hn⟩ := hinv.gather_pageAt
  have hnd : (gather (PageUse.places n NPROC 512 UPAGES P G.toFinset) (k.pageAt G)).Nodup :=
    hgather ▸ nodup_physPages
  rw [← hgather] at hpg
  obtain ⟨u, hu, hpg⟩ := mem_gather.mp hpg
  exact ⟨u, hpg, fun u' hu' => gather_inj hnd (hinv.mem_places hn hu') hu hu' hpg⟩

end Kernel

end

/-! ## On the small machine -/

namespace Kernel

local instance layoutOwner : Layout := smallLayout

/-- The machine with 32 pages after the first process has forked: the page that was first in the
free list is the trapframe of the first process, and nothing else. -/
theorem page_has_one_owner_fork : ∃ k, run step (boot smallMem)
      [.userinit 1, .schedule 0, .fork 0] = some k ∧
      k.pageAt 0 (.trapframe 0) = some (PHYSTOP - 32 * PGSIZE) ∧
      ∃! u, k.pageAt 0 u = some (PHYSTOP - 32 * PGSIZE) := by
  have hrun : (run step (boot smallMem) [.userinit 1, .schedule 0, .fork 0]).map
      (fun k => k.pageAt 0 (.trapframe 0)) = some (some (PHYSTOP - 32 * PGSIZE)) := by
    decide +kernel
  obtain ⟨k, hk, hpg⟩ := Option.map_eq_some_iff.mp hrun
  exact ⟨k, hk, hpg, (page_has_one_owner smallMem_used hk).1 _ (by decide +kernel)⟩

end Kernel
end Xv6
