import Xv6.Kernel.Inv

/-!
# What the functions of the kernel do to the invariant

One specification for each function on files, pipes and process slots.
-/

namespace Xv6

open Finset Function

variable [Layout] {z : Prop} {k : Kernel} {tab : ℕ → Option PageTable} {P : Finset ℕ}
  {H G S : Multiset ℕ}

namespace Kernel

/-! ## Files and pipes -/

omit [Layout] in
lemma quiet_wakeup (k : Kernel) (c : ℕ) (pipe : ℕ → Option Pipe) (file : ℕ → File) (m : Mem) :
    Quiet k { k with
      proc := fun p => if p < NPROC then (k.proc p).wakeup c else k.proc p
      pipe := pipe
      file := file
      mem := m } where
  proc p := by
    dsimp only
    split
    · exact .wakeup _ _
    · exact .refl _
  initproc := rfl

/-- **`fileclose`** gives up one reference to a file; the page of a pipe is freed with its last
end. -/
lemma fileclose_spec {f : ℕ} (hm : MemInv k.mem k.proc tab (P.val + G))
    (hf : FileInv k.file k.pipe P (f ::ₘ S)) :
    Returns (fileclose f) (fun _ k' => ∃ P', MemInv k'.mem k'.proc tab (P'.val + G) ∧
      FileInv k'.file k'.pipe P' S ∧ Quiet k k') k := by
  have hpos := hf.ref_pos
  simp only [Returns, fileclose, wp_bind, wp_get]
  rw [wp_ite_neg (by omega)]
  by_cases href : (k.file f).ref - 1 > 0
  · rw [wp_ite_pos href]
    exact ⟨P, hm, hf.dropRef href, fun _ => .refl _, rfl⟩
  rw [wp_ite_neg href]
  simp only [wp_bind, wp_setFile]
  by_cases htype : (k.file f).type = .pipe
  · rw [wp_ite_pos htype]
    obtain ⟨x, hx, -⟩ := (hf.isOpen (k.file f).pipe (k.file f).writable).mpr
      ⟨f, hf.lt f (Multiset.mem_cons_self f S), htype, rfl, rfl⟩
    simp only [pipeclose, wp_bind, wp_get, hx, wp_modify, wp_wakeup]
    have hq := quiet_wakeup k (if (k.file f).writable then Pipe.nreadChan (k.file f).pipe
      else Pipe.nwriteChan (k.file f).pipe) k.pipe k.file k.mem
    have hm₁ := hm.woken hq.proc
    by_cases hlast : ((!(x.closeEnd (k.file f).writable).readopen) &&
        !(x.closeEnd (k.file f).writable).writeopen) = true
    · have hclosed : ∀ w, (x.closeEnd (k.file f).writable).isOpen w = false := by
        rw [Bool.and_eq_true, Bool.not_eq_true', Bool.not_eq_true'] at hlast
        intro w
        cases w
        · exact hlast.1
        · exact hlast.2
      have hmem : (k.file f).pipe ∈ P := (hf.pages _).mpr (by simp [hx])
      have hval : P.val = (k.file f).pipe ::ₘ (P.erase (k.file f).pipe).val := by
        rw [erase_val, Multiset.cons_erase hmem]
      rw [hval, Multiset.cons_add] at hm₁
      rw [wp_ite_pos hlast]
      simp only [wp_bind, wp_modify, wp_onMem, update_idem]
      refine hm₁.kfree.imp ?_
      rintro _ m₂ ⟨hm₂, _⟩
      refine ⟨P.erase (k.file f).pipe, hm₂, ?_, hq.proc, rfl⟩
      refine hf.closeEnd href htype hx (fun pg hpg => update_of_ne hpg ..)
        (Or.inr ⟨update_self .., hclosed⟩) (fun pg => ?_) fun x' hx' => ?_
      · by_cases hpg : pg = (k.file f).pipe
        · simp [hpg]
        · rw [mem_erase, update_of_ne hpg, hf.pages pg]
          simp [hpg]
      · rw [update_self] at hx'
        exact absurd hx' (by simp)
    · have hopen : ∃ w, (x.closeEnd (k.file f).writable).isOpen w = true := by
        by_contra hnone
        push Not at hnone
        apply hlast
        have h₀ := hnone false
        have h₁ := hnone true
        simp only [Pipe.isOpen, Bool.not_eq_true] at h₀ h₁
        simp_all
      rw [wp_ite_neg hlast]
      refine ⟨P, hm₁, ?_, hq.proc, rfl⟩
      refine hf.closeEnd href htype hx (fun pg hpg => update_of_ne hpg ..)
        (Or.inl (update_self ..)) (fun pg => ?_) fun x' hx' => ?_
      · dsimp only
        by_cases hpg : pg = (k.file f).pipe
        · rw [hpg, update_self, hf.pages, hx]
          simp
        · rw [update_of_ne hpg, hf.pages pg]
      · dsimp only at hx'
        rw [update_self] at hx'
        obtain rfl := Option.some.inj hx'
        exact hopen
  · rw [wp_ite_neg htype]
    exact ⟨P, hm, hf.close href htype, fun _ => .refl _, rfl⟩

omit [Layout] in
lemma filealloc_spec (hf : FileInv k.file k.pipe P S) : Returns filealloc (fun r k' =>
    (r = none ∧ k' = k) ∨ ∃ f x, r = some f ∧ f < NFILE ∧ (k.file f).ref = 0 ∧ x.type = .none ∧
      x.ref = 1 ∧ k' = { k with file := update k.file f x } ∧
      FileInv (update k.file f x) k.pipe P (f ::ₘ S)) k := by
  simp only [Returns, filealloc, wp_bind, wp_get]
  cases hfind : (List.range NFILE).find? fun f => (k.file f).ref = 0 with
  | none => exact Or.inl ⟨rfl, rfl⟩
  | some f =>
    obtain ⟨hlt, href⟩ := find_range hfind
    have href : (k.file f).ref = 0 := by simpa using href
    have hadd := hf.addRef hlt
    rw [href] at hadd
    exact Or.inr ⟨f, { k.file f with ref := 1 }, rfl, hlt, href, hf.free f hlt href, rfl, rfl, hadd⟩

omit [Layout] in
lemma filedup_spec {f : ℕ} (hf : FileInv k.file k.pipe P S) (hmem : f ∈ S) :
    Returns (filedup f) (fun _ k' => k' = { k with
        file := update k.file f { k.file f with ref := (k.file f).ref + 1 } } ∧
      FileInv k'.file k.pipe P (f ::ₘ S)) k := by
  have hlt := hf.lt f hmem
  have href := hf.ref f hlt
  have hpos := Multiset.count_pos.mpr hmem
  simp only [Returns, filedup, wp_bind, wp_get]
  rw [wp_ite_neg (by omega)]
  exact ⟨rfl, hf.addRef hlt⟩

/-- **`pipealloc`** makes a pipe with two new files, or leaves nothing behind. -/
lemma pipealloc_spec (hm : MemInv k.mem k.proc tab (P.val + G)) (hf : FileInv k.file k.pipe P S) :
    Returns pipealloc (fun r k' => ∃ P', MemInv k'.mem k'.proc tab (P'.val + G) ∧ Quiet k k' ∧
      ((r = none ∧ FileInv k'.file k'.pipe P' S) ∨
       ∃ f0 f1, r = some (f0, f1) ∧ FileInv k'.file k'.pipe P' (f0 ::ₘ f1 ::ₘ S))) k := by
  simp only [Returns, pipealloc, wp_bind]
  refine (filealloc_spec hf).imp fun r k₁ hr => ?_
  rcases hr with ⟨rfl, rfl⟩ | ⟨f0, x0, rfl, h0, -, ht0, hr0, rfl, hf₁⟩
  · exact ⟨P, hm, .refl _, Or.inl ⟨rfl, hf⟩⟩
  simp only [wp_bind]
  refine (filealloc_spec hf₁).imp fun r k₂ hr => ?_
  rcases hr with ⟨rfl, rfl⟩ | ⟨f1, x1, rfl, h1, href1, ht1, hr1, rfl, hf₂⟩
  · simp only [wp_bind]
    refine (fileclose_spec (k := { k with file := update k.file f0 x0 }) hm hf₁).imp ?_
    rintro _ k₃ ⟨P₃, hm₃, hf₃, hq₃⟩
    exact ⟨P₃, hm₃, ⟨hq₃.proc, hq₃.initproc⟩, Or.inl ⟨rfl, hf₃⟩⟩
  have hne : f1 ≠ f0 := by
    rintro rfl
    dsimp only at href1
    rw [update_self] at href1
    omega
  simp only [wp_bind, wp_onMem]
  refine hm.kalloc.imp ?_
  rintro pi m₃ ⟨_, hpi⟩
  rcases hpi with ⟨rfl, hm₃⟩ | ⟨hphys, hm₃⟩
  · rw [wp_ite_pos rfl]
    simp only [wp_bind]
    rw [Multiset.cons_swap] at hf₂
    refine (fileclose_spec (k := { k with
      mem := m₃, file := update (update k.file f0 x0) f1 x1 }) hm₃ hf₂).imp ?_
    rintro _ k₄ ⟨P₄, hm₄, hf₄, hq₄⟩
    refine (fileclose_spec hm₄ hf₄).imp ?_
    rintro _ k₅ ⟨P₅, hm₅, hf₅, hq₅⟩
    have hq := hq₄.trans hq₅
    exact ⟨P₅, hm₅, ⟨hq.proc, hq.initproc⟩, Or.inl ⟨rfl, hf₅⟩⟩
  · have hnot : pi ∉ P := fun hmem => by
      have hnd := (Multiset.nodup_add.mp hm₃.used.nodup).2.1
      exact (Multiset.nodup_cons.mp hnd).1 (Multiset.mem_add.mpr (Or.inl hmem))
    rw [wp_ite_neg hphys.pos.ne']
    simp only [wp_bind, wp_modify, wp_setFile]
    refine ⟨insert pi P, ?_, ⟨fun _ => .refl _, rfl⟩, Or.inr ⟨f0, f1, rfl, ?_⟩⟩
    · rw [insert_val_of_notMem hnot, Multiset.cons_add]
      exact hm₃
    · rw [Multiset.cons_swap]
      refine hf₂.addPipe h0 h1 hne.symm ?_ ?_ ?_ ?_ ⟨⟨rfl, rfl, rfl⟩, rfl⟩ ⟨⟨rfl, rfl, rfl⟩, ?_⟩ hnot
      all_goals simp [update_of_ne hne, update_of_ne hne.symm, ht0, hr0, ht1, hr1]

omit [Layout] in
lemma fdalloc_spec {p f : ℕ} : Returns (fdalloc p f) (fun r k' => (r = -1 ∧ k' = k) ∨
    ∃ fd < NOFILE, r = fd ∧ (k.proc p).ofile fd = none ∧ k' = { k with
      proc := update k.proc p { k.proc p with
        ofile := update (k.proc p).ofile fd (some f) } }) k := by
  simp only [Returns, fdalloc, wp_bind, wp_get]
  cases hfind : (List.range NOFILE).find? fun fd => ((k.proc p).ofile fd).isNone with
  | none => exact Or.inl ⟨rfl, rfl⟩
  | some fd =>
    obtain ⟨hlt, hnone⟩ := find_range hfind
    exact Or.inr ⟨fd, hlt, rfl, by simpa using hnone, rfl⟩

/-! ## Process slots -/

/-- `freeproc` of a process gives all its pages back. -/
lemma freeproc_spec {p : ℕ} {T : PageTable} {R : Multiset ℕ} (hm : MemInv k.mem k.proc tab R)
    (hp : p < NPROC) (hT : tab p = some T) :
    Returns (freeproc p) (fun _ k' => ∃ m, k' = { k with
        mem := m, proc := update k.proc p (Proc.freed (k.proc p)) } ∧
      MemInv m k'.proc (update tab p none) R ∧
      Frame k.mem m (restPages k.proc tab p + R)) k := by
  have hslot := hm.slot p hp
  rw [hT] at hslot
  obtain ⟨-, hpt, hroot, huser⟩ := hslot
  have hs := hm.focus hp hT
  have htf : IsPhys (k.proc p).trapframe := hs.used.isPhys (by simp)
  simp only [Returns, freeproc, wp_bind, wp_get]
  rw [if_pos htf.pos.ne']
  simp only [wp_bind, wp_onMem]
  refine hs.kfree.imp ?_
  rintro _ m₁ ⟨hs₁, hf₁⟩
  simp only [wp_setProc, wp_get, update_self]
  rw [if_pos hpt]
  simp only [wp_bind, wp_get, wp_onMem, update_self, ← hroot]
  refine (hs₁.procFreepagetable huser).imp ?_
  rintro _ m₂ ⟨hu₂, hf₂⟩
  simp only [wp_setProc, update_self, update_idem]
  have hf := (hf₁.mono (Multiset.le_add_left _ _)).trans hf₂
  exact ⟨m₂, rfl, hm.unfocus_none hp hu₂ (hf.mono (Multiset.le_add_right _ _)) ⟨rfl, rfl, rfl, rfl⟩, hf⟩

/-- `freeproc` of a slot that has no page table yet, and maybe no trapframe. -/
lemma freeproc_incomplete {p : ℕ} (proc : ℕ → Proc) (q : Proc) {R : Multiset ℕ} (hp : p < NPROC)
    (hT : tab p = none) (hk : k.proc = update proc p q) (hpt : q.pagetable = 0)
    (hm : (q.trapframe = 0 ∧ MemInv k.mem proc tab R) ∨
      (q.trapframe ≠ 0 ∧ MemInv k.mem proc tab (q.trapframe ::ₘ R))) :
    Returns (freeproc p) (fun _ k' => ∃ m, k' = { k with
        mem := m, proc := update proc p (Proc.freed q) } ∧ MemInv m k'.proc tab R ∧
      Frame k.mem m (usedPages proc tab R)) k := by
  -- Once the trapframe is out of the way only the slot is left to clear.
  have hrest : ∀ {m : Mem}, MemInv m proc tab R →
      MemInv m (update proc p (Proc.freed q)) tab R := by
    intro m h
    have hslot := h.slot p hp
    rw [hT] at hslot
    refine h.congr (fun i hi => ?_) fun i hi => ?_
    · by_cases hip : i = p
      · rw [hip, update_self, hT]
        exact ⟨rfl, rfl, rfl, rfl⟩
      · rw [update_of_ne hip]
        exact h.slot i hi
    · by_cases hip : i = p
      · rw [hip, update_self, hslot.2.2.1]
        rfl
      · rw [update_of_ne hip]
  simp only [Returns, freeproc, wp_bind, wp_get, hk, update_self]
  rcases hm with ⟨htf, hm⟩ | ⟨htf, hm⟩
  · rw [if_neg (by simpa using htf)]
    simp only [wp_bind, wp_setProc, wp_get, hk, update_self, hpt]
    rw [if_neg (by simp)]
    simp only [wp_setProc, update_self, update_idem]
    exact ⟨k.mem, rfl, hrest hm, .refl _ _⟩
  · rw [if_pos htf]
    simp only [wp_onMem, wp_bind]
    refine hm.kfree.imp ?_
    rintro _ m₁ ⟨hm₁, hf₁⟩
    simp only [wp_setProc, wp_get, hk, update_self, hpt]
    rw [if_neg (by simp)]
    simp only [wp_setProc, update_self, update_idem]
    exact ⟨m₁, rfl, hrest hm₁, hf₁⟩

/-- **`allocproc`** turns an `UNUSED` slot into a process without memory; if it fails, the slot is
`UNUSED` again. -/
lemma allocproc_spec (h : KernelInv z k tab P H G) : Returns allocproc (fun r k' =>
    Frame k.mem k'.mem (usedPages k.proc tab (P.val + G)) ∧
    ((r = none ∧ KernelInv z k' tab P H G ∧ k'.initproc = k.initproc ∧ k'.file = k.file ∧
      (∀ i, (k'.proc i).state = .unused ↔ (k.proc i).state = .unused) ∧
      ∀ i, (k.proc i).state ≠ .unused → k'.proc i = k.proc i) ∨
    ∃ np T m n tf, r = some np ∧ np < NPROC ∧ (k.proc np).state = .unused ∧
      k' = { k with
        mem := m
        nextpid := n
        proc := update k.proc np (Proc.allocated (k.proc np) k.nextpid tf T.root) } ∧
      KernelInv z k' (update tab np (some T)) P H G ∧ UserTable T 0 tf)) k := by
  simp only [Returns, allocproc, wp_bind, wp_get]
  cases hfind : (List.range NPROC).find? fun p => (k.proc p).state = .unused with
  | none => exact ⟨.refl _ _, Or.inl ⟨rfl, h, rfl, rfl, fun _ => Iff.rfl, fun _ _ => rfl⟩⟩
  | some p =>
    obtain ⟨hp, hst⟩ := find_range hfind
    have hst : (k.proc p).state = .unused := by simpa using hst
    have hT : tab p = none := h.mem.tab_eq_none hp hst
    obtain ⟨hclean, hkilled⟩ := (h.slot p hp).clean hst
    -- What is left of the invariant when the slot is given up again.
    have hfail : ∀ {m : Mem} {n : ℤ} {q : Proc},
        MemInv m (update k.proc p (Proc.freed q)) tab (P.val + G) →
        q.ofile = (k.proc p).ofile → q.parent = (k.proc p).parent → q.cwd = (k.proc p).cwd →
        KernelInv z { k with
          mem := m, nextpid := n, proc := update k.proc p (Proc.freed q) } tab P H G ∧
        (∀ i, (update k.proc p (Proc.freed q) i).state = .unused ↔
          (k.proc i).state = .unused) ∧
        ∀ i, (k.proc i).state ≠ .unused →
          update k.proc p (Proc.freed q) i = k.proc i := by
      intro m n q hm hof hpar hcwd
      have hok : SlotOk z q.freed := .freed (fun fd hfd => by rw [hof, hclean.ofile fd hfd])
        (hpar.trans hclean.parent) (hcwd.trans hclean.cwd)
      refine ⟨h.set hok hof hm, fun i => ?_,
        fun i hi => update_of_ne (fun hip : i = p => hi (hip ▸ hst)) ..⟩
      · by_cases hip : i = p
        · rw [hip, update_self]
          exact iff_of_true rfl hst
        · rw [update_of_ne hip]
    simp only [allocpid, wp_bind, wp_get, wp_modify, wp_pure, wp_setProc, wp_onMem]
    refine h.mem.kalloc.imp ?_
    rintro tf m₁ ⟨hf₁, htf⟩
    simp only [update_self, update_idem]
    rcases htf with ⟨rfl, hm₁⟩ | ⟨hphys, hm₁⟩
    · rw [wp_ite_pos rfl]
      simp only [wp_bind]
      refine (freeproc_incomplete k.proc
        { k.proc p with pid := k.nextpid, state := .used, trapframe := 0 } hp hT rfl hclean.pagetable
        (Or.inl ⟨rfl, hm₁⟩)).imp ?_
      rintro _ k₂ ⟨m₂, hk₂, hm₂, hf₂⟩
      rw [hk₂] at hm₂ ⊢
      obtain ⟨hinv, hun, hsame⟩ := hfail (n := toInt32 (k.nextpid + 1)) hm₂ rfl rfl rfl
      exact ⟨hf₁.trans hf₂, Or.inl ⟨rfl, hinv, rfl, rfl, hun, hsame⟩⟩
    rw [wp_ite_neg hphys.pos.ne']
    simp only [wp_bind, wp_onMem, wp_setProc, update_self, update_idem]
    have hused := hm₁.used
    refine hused.procPagetable.imp ?_
    rintro pt m₂ ⟨hf₂, hres⟩
    have hf₁₂ : Frame k.mem m₂ (usedPages k.proc tab (P.val + G)) :=
      hf₁.trans (hf₂.mono (add_le_add le_rfl (Multiset.le_cons_self _ _)))
    rcases hres with ⟨rfl, hu₂⟩ | ⟨hpt, T, rfl, hs₂, huser⟩
    · rw [wp_ite_pos rfl]
      simp only [wp_bind]
      have hm₂ := hm₁.change hu₂ (hf₂.mono (Multiset.le_add_right _ _))
      refine (freeproc_incomplete k.proc _ hp hT rfl rfl
        (Or.inr ⟨hphys.pos.ne', hm₂⟩)).imp ?_
      rintro _ k₃ ⟨m₃, hk₃, hm₃, hf₃⟩
      rw [hk₃] at hm₃ ⊢
      obtain ⟨hinv, hun, hsame⟩ := hfail (n := toInt32 (k.nextpid + 1)) hm₃ rfl rfl rfl
      exact ⟨hf₁₂.trans hf₃, Or.inl ⟨rfl, hinv, rfl, rfl, hun, hsame⟩⟩
    · rw [wp_ite_neg hpt]
      have hrest : ∑ i ∈ range NPROC, slotPages (k.proc i) (tab i) = restPages k.proc tab p := by
        rw [sum_slotPages hp, hT, slotPages, zero_add]
      rw [Multiset.add_cons, hrest] at hs₂
      have hm₂ : MemInv m₂ (update k.proc p
          (Proc.allocated (k.proc p) k.nextpid tf T.root)) (update tab p (some T))
          (P.val + G) := by
        refine hm₁.unfocus hp hs₂ (hf₂.mono ?_) ⟨by simp [Proc.allocated], hpt, rfl, ?_⟩
        · rw [← hrest]
          exact Multiset.le_add_right _ _
        · change UserTable T (k.proc p).sz tf
          rw [hclean.sz]
          exact huser
      exact ⟨hf₁₂, Or.inr ⟨p, T, m₂, _, tf, rfl, hp, hst, rfl,
        h.set (.of_live (by simp) (by simp)) rfl hm₂, huser⟩⟩

end Kernel
end Xv6
