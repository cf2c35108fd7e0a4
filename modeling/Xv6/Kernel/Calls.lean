import Xv6.Kernel.Exec
import Xv6.Kernel.Spec

/-!
# System calls keep the invariant

`fork`, `exit`, `wait`, `kill`, `sbrk`, page faults and the calls on files, each from any state that
meets the invariant.
-/

namespace Xv6

open Finset Function

variable [Layout] {z : Prop} {k : Kernel} {tab : ℕ → Option PageTable} {P : Finset ℕ}
  {H G : Multiset ℕ} {p : ℕ}

/-- The invariant holds, and the slot `p` still is a process. -/
def Good (z : Prop) (H G : Multiset ℕ) (p : ℕ) (k : Kernel) : Prop :=
  (∃ tab P, KernelInv z k tab P H G) ∧ (k.proc p).state ≠ .unused

variable {m : Mem} {R : Multiset ℕ}

/-- The trapframe of a process may be written. -/
lemma MemInv.writeTrapframe {proc : ℕ → Proc}
    (h : MemInv m proc tab R) (hp : p < NPROC) (hst : (proc p).state ≠ .unused) (b : Bytes) :
    MemInv (m.write (proc p).trapframe b) proc tab R := by
  obtain ⟨T, hT, hpt, hroot, huser⟩ := h.tab_isSome hp hst
  obtain ⟨hs, hf⟩ := (h.focus hp hT).write_held b
  have hinv := h.unfocus hp hs (hf.mono ((Multiset.le_add_right _ _).trans (Multiset.le_add_left _ _)))
    ⟨hst, hpt, hroot, huser⟩
  rwa [update_eq_self, update_eq_self_iff.mpr hT.symm] at hinv

lemma MemInv.frame_trapframe {proc : ℕ → Proc} {T : PageTable}
    (h : MemInv m proc tab R) (hp : p < NPROC) (hT : tab p = some T) (b : Bytes) :
    Frame m (m.write (proc p).trapframe b) (T.userPages + (restPages proc tab p + R)) :=
  ((h.focus hp hT).write_held b).2

/-- `uvmcopy` from the table of one process to the empty one of another. -/
lemma MemInv.uvmcopy {proc : ℕ → Proc} {np sz tf : ℕ}
    {T₀ T : PageTable} (h : MemInv m proc tab R) (hp : p < NPROC) (hnp : np < NPROC) (hne : p ≠ np)
    (hT₀ : tab p = some T₀) (hT : tab np = some T) (hu₀ : UserTable T₀ sz tf)
    (hu : UserTable T 0 (proc np).trapframe) :
    Returns (Xv6.uvmcopy T₀.root T.root sz) (fun r m' => ∃ T' : PageTable, T'.root = T.root ∧
      Frame m m' ((proc np).trapframe ::ₘ (restPages proc tab np + R)) ∧
      ((r = -1 ∧ UserTable T' 0 (proc np).trapframe) ∨
       (r = 0 ∧ UserTable T' sz (proc np).trapframe ∧ Copied T₀.leaf T.leaf T'.leaf (pagesOf sz) ∧
        SamePages m'.page T₀ T' (pagesOf sz))) ∧
      ∀ q, q.trapframe = (proc np).trapframe → SlotTable q (some T') →
        MemInv m' (update proc np q) (update tab np (some T')) R) m := by
  have hle := le_restPages proc tab hp hne
  rw [hT₀, slotPages] at hle
  obtain ⟨R₂, hR₂⟩ := Multiset.le_iff_exists_add.mp hle
  have hs := h.focus hnp hT
  have hS : (proc np).trapframe ::ₘ (restPages proc tab np + R) = T₀.tablePages +
      (T₀.userPages + ({(proc p).trapframe} + (proc np).trapframe ::ₘ (R₂ + R))) := by
    rw [hR₂]
    simp only [Multiset.add_cons, add_assoc]
  rw [hS] at hs ⊢
  refine (hs.uvmcopy (h.repr p hp T₀ hT₀) (Multiset.le_add_right _ _)
    (fun u hu' => hu.eq_none (Nat.zero_le u) hu') hu₀.size_le).imp ?_
  rintro r m' ⟨T', hr, hs', hf, hres⟩
  refine ⟨T', hr, hf, ?_, fun q htf hslot => ?_⟩
  · exact hres.imp (fun hr => ⟨hr.1, hu.congr hr.2⟩) fun hr =>
      ⟨hr.1, hu.copied hu₀ hr.2.1, hr.2⟩
  · rw [← hS] at hs' hf
    refine h.unfocus hnp ?_ (hf.mono ?_) hslot
    · rwa [htf]
    · exact (Multiset.le_add_right _ _).trans (Multiset.le_cons_self _ _)

namespace Kernel

/-! ## Memory -/

/-- The size of a process that `growproc` has grown by `n` bytes, and what it returned. -/
def Grown (sz : ℕ) (n r : ℤ) (sz' : ℕ) : Prop :=
  if 0 < n then (r = -1 ∧ sz' = sz) ∨ (r = 0 ∧ sz' = sz + n.toNat ∧ sz' ≤ TRAPFRAME)
  else r = 0 ∧ sz' = if n < 0 then min sz ((sz + n) % 2 ^ 64).toNat else sz

section

variable (h : KernelInv z k tab P H G) (hp : p < NPROC)
include h hp

lemma growproc_spec (hst : (k.proc p).state ≠ .unused) (n : ℤ) :
    Returns (growproc p n) (fun r k' => Good z H G p k' ∧
      Grown (k.proc p).sz n r (k'.proc p).sz) k := by
  simp only [Returns, growproc, wp_bind, wp_get]
  by_cases hpos : n > 0
  · rw [if_pos hpos]
    by_cases hmax : (k.proc p).sz + n.toNat > TRAPFRAME
    · rw [wp_ite_pos hmax]
      exact ⟨⟨⟨tab, P, h⟩, hst⟩, by rw [Grown, if_pos hpos]; exact Or.inl ⟨rfl, rfl⟩⟩
    rw [wp_ite_neg hmax]
    simp only [wp_bind, wp_onMem]
    have hx := h.onTable (Q := fun r sz => (r = 0 ∧ sz = (k.proc p).sz) ∨
        (r ≠ 0 ∧ sz = r ∧ r = (k.proc p).sz + n.toNat)) hp hst
      (x := uvmalloc (k.proc p).pagetable (k.proc p).sz ((k.proc p).sz + n.toNat) PTE_W)
      fun T S hr hu hs => by
        rw [← hr]
        refine (hs.uvmalloc _ (by decide) hu.size_le (fun u h₁ h₂ => hu.eq_none h₁ h₂)
          (Or.inl (by omega))).imp ?_
        rintro r m' ⟨T', hr', hs', hf, _, hres⟩
        refine ⟨T', hr', hs', hf.mono (Multiset.le_add_left _ _), ?_⟩
        rcases hres with ⟨hlt, -⟩ | ⟨-, rfl, hl⟩ | ⟨hle, rfl, hmax', hfr⟩
        · omega
        · exact ⟨_, Or.inl ⟨rfl, rfl⟩, hu.congr hl⟩
        · exact ⟨_, Or.inr ⟨by omega, rfl, rfl⟩, hu.fresh hle hmax' (by decide) (by decide) hfr⟩
    refine hx.imp ?_
    rintro r m' ⟨sz, hsz, -, tab', hinv⟩
    rcases hsz with ⟨rfl, rfl⟩ | ⟨hr, rfl, hrn⟩
    · rw [wp_ite_pos rfl]
      refine ⟨⟨⟨tab', P, ?_⟩, hst⟩, by rw [Grown, if_pos hpos]; exact Or.inl ⟨rfl, rfl⟩⟩
      simpa using hinv
    · rw [wp_ite_neg hr]
      refine ⟨⟨⟨tab', P, hinv⟩, ?_⟩, ?_⟩
      · dsimp only
        rw [update_self]
        exact hst
      · dsimp only
        rw [update_self, Grown, if_pos hpos]
        exact Or.inr ⟨rfl, hrn, by dsimp only; omega⟩
  rw [if_neg hpos]
  by_cases hneg : n < 0
  · rw [if_pos hneg]
    simp only [wp_bind, wp_onMem]
    have hx := h.onTable (Q := fun r sz => sz = r ∧
        r = min (k.proc p).sz (((k.proc p).sz + n) % 2 ^ 64).toNat) hp hst
      (x := uvmdealloc (k.proc p).pagetable (k.proc p).sz (((k.proc p).sz + n) % 2 ^ 64).toNat)
      fun T S hr hu hs => by
        rw [← hr]
        refine (hs.uvmdealloc hu.size_le).imp ?_
        rintro r m' ⟨T', hr', hmin, hl, hs', hf⟩
        refine ⟨T', PageTable.root_eq hr', hs', hf.mono (Multiset.le_add_left _ _), r, ⟨rfl, hmin⟩, ?_⟩
        by_cases hle : (((k.proc p).sz + n) % 2 ^ 64).toNat ≤ (k.proc p).sz
        · rw [hmin, Nat.min_eq_right hle]
          exact hu.shrink hle hl
        · rw [hmin, Nat.min_eq_left (by omega)]
          refine hu.congr (hl.trans (clearLeaves_eq_self fun u _ _ => ?_))
          have := pagesOf_mono (Nat.le_of_not_le hle)
          omega
    refine hx.imp ?_
    rintro r m' ⟨sz, ⟨hsz, hrn⟩, -, tab', hinv⟩
    subst hsz
    refine ⟨⟨⟨tab', P, hinv⟩, ?_⟩, ?_⟩
    · dsimp only
      rw [update_self]
      exact hst
    · dsimp only
      rw [update_self, Grown, if_neg hpos, if_pos hneg]
      exact ⟨rfl, hrn⟩
  · rw [if_neg hneg]
    refine ⟨⟨⟨tab, P, h⟩, hst⟩, ?_⟩
    rw [Grown, if_neg hpos, if_neg hneg]
    exact ⟨rfl, rfl⟩

lemma sysSbrk_spec (hst : (k.proc p).state ≠ .unused) (n t : ℤ) :
    Returns (sysSbrk p n t) (fun _ k' => Good z H G p k') k := by
  simp only [Returns, sysSbrk, wp_bind, wp_get]
  by_cases hc : t = SBRK_EAGER ∨ n < 0
  · rw [if_pos hc]
    simp only [wp_bind]
    refine (growproc_spec h hp hst n).imp fun r k' hk' => ?_
    exact wp_ite.mpr ⟨fun _ => hk'.1, fun _ => hk'.1⟩
  rw [if_neg hc]
  obtain ⟨T, hT, hpt, hroot, huser⟩ := h.mem.tab_isSome hp hst
  refine wp_ite.mpr ⟨fun _ => ⟨⟨tab, P, h⟩, hst⟩, fun hge => ?_⟩
  refine wp_ite.mpr ⟨fun _ => ⟨⟨tab, P, h⟩, hst⟩, fun hmax => ?_⟩
  simp only [wp_bind, wp_setProc, wp_pure]
  have hok : SlotOk z { k.proc p with sz := ((k.proc p).sz + n.toNat) % 2 ^ 64 } :=
    ⟨fun hu => absurd hu hst, fun hz => (h.slot p hp).zombie hz⟩
  refine ⟨⟨update tab p (some T), P, h.set (p := p) hok rfl ?_⟩, ?_⟩
  · have hs := h.mem.focus hp hT
    exact h.mem.unfocus hp hs (Frame.refl _ _)
      ⟨hst, hpt, hroot, huser.grow (by dsimp only; omega) (by dsimp only; omega)⟩
  · dsimp only
    rw [update_self]
    exact hst

/-- A page fault in the kernel or from user space. -/
lemma vmfault_spec (hst : (k.proc p).state ≠ .unused) (va : ℕ) :
    Returns (vmfault (k.proc p).pagetable (k.proc p).sz va) (fun _ m' => ∃ tab',
      KernelInv z { k with mem := m' } tab' P H G) k.mem := by
  refine wp.imp (h.onTable_same (Q := fun _ => True) hp hst fun T S hr hu hs => ?_)
    fun _ _ hk => hk.2.2
  · rw [← hr]
    refine (hs.vmfault hu.size_le va).imp ?_
    rintro r m' ⟨T', hr', hs', hf, _, hres⟩
    refine ⟨T', hr', hs', hf.mono (Multiset.le_add_left _ _), ?_, trivial⟩
    rcases hres with ⟨-, hl, -⟩ | ⟨hlt, hnone, hphys, hl⟩
    · exact hu.congr hl
    · refine hu.faulted (a := pageOf va) (b := pageOf va + 1) ?_
      rw [hl]
      exact Faulted.update hnone (lt_of_le_of_lt (Nat.div_mul_le_self va PGSIZE) hlt) hphys

lemma copyout_spec (hst : (k.proc p).state ≠ .unused) (dstva : ℕ) (src : Bytes) (len : ℕ) :
    Returns (copyout (k.proc p).pagetable (k.proc p).sz dstva src len) (fun _ m' => ∃ tab',
      KernelInv z { k with mem := m' } tab' P H G) k.mem := by
  refine wp.imp (h.onTable_same (Q := fun _ => True) hp hst fun T S hr hu hs => ?_)
    fun _ _ hk => hk.2.2
  · rw [← hr]
    refine (hs.copyout hu.size_le hu.noUser src).imp ?_
    rintro r m' ⟨T', _, hr', hs', hf, hft, _⟩
    exact ⟨T', hr', hs', hf, hu.faulted hft, trivial⟩

lemma copyin_spec (hst : (k.proc p).state ≠ .unused) (dst : Bytes) (srcva len : ℕ) :
    Returns (copyin (k.proc p).pagetable (k.proc p).sz dst srcva len) (fun _ m' =>
      Frame k.mem m' (P.val + G) ∧ ∃ tab', KernelInv z { k with mem := m' } tab' P H G) k.mem := by
  refine wp.imp (h.onTable_same (Q := fun _ => True) hp hst fun T S hr hu hs => ?_)
    fun _ _ hk => hk.2
  · rw [← hr]
    refine (hs.copyin hu.size_le hu.noUser dst).imp ?_
    rintro r m' ⟨T', _, hr', hs', hf, _, hft, _⟩
    exact ⟨T', hr', hs', hf.mono (Multiset.le_add_left _ _), hu.faulted hft, trivial⟩

/-- What `copyinstr` delivers ends in the buffer. -/
lemma copyinstr_spec (hst : (k.proc p).state ≠ .unused) (dst : Bytes) (srcva max : ℕ) :
    Returns (copyinstr (k.proc p).pagetable (k.proc p).sz dst srcva max) (fun r m' =>
      (0 ≤ r.1 → strlenFrom r.2 max 0 < max) ∧ Frame k.mem m' (P.val + G) ∧
      ∃ tab', KernelInv z { k with mem := m' } tab' P H G) k.mem :=
  h.onTable_same (Q := fun r : ℤ × Bytes => 0 ≤ r.1 → strlenFrom r.2 max 0 < max) hp hst
    fun T S hr hu hs => by
    rw [← hr]
    refine (hs.copyinstr hu.size_le hu.noUser dst).imp ?_
    rintro r m' ⟨T', n, hr', hs', hf, _, hft, _, _, hreach, hfe⟩
    refine ⟨T', hr', hs', hf.mono (Multiset.le_add_left _ _), hu.faulted hft, fun hge => ?_⟩
    obtain ⟨hpos, hnul, hne⟩ := hreach.nul (by omega)
    have hle := hreach.le
    have hlen : strlenFrom r.2 max 0 = n - 1 := by
      refine strlenFrom_eq max (by omega) (fun j hj => ?_) ?_
      · rw [Nat.zero_add, hfe j, if_pos (by omega)]
        exact hne j hj
      · rw [Nat.zero_add, hfe (n - 1), if_pos (by omega)]
        exact hnul
    omega

lemma setTrapframe_spec (hst : (k.proc p).state ≠ .unused) (off : ℕ) (v : BitVec 64) :
    Returns (setTrapframe p off v) (fun _ k' => Good z H G p k') k := by
  simp only [Returns, setTrapframe, wp_bind, wp_get, wp_onMem, wp_modify]
  exact ⟨⟨tab, P, h.setMem (h.mem.writeTrapframe hp hst _)⟩, hst⟩

end

/-! ## Files -/

variable {f fd np pp : ℕ}

/-- A new descriptor for a reference that is held. -/
lemma fdalloc_held (h : KernelInv z k tab P (f ::ₘ H) G) (hp : p < NPROC)
    (hst : (k.proc p).state = .running) :
    Returns (fdalloc p f) (fun r k' => (r = -1 ∧ k' = k) ∨ ∃ fd < NOFILE, r = fd ∧
      (k.proc p).ofile fd = none ∧ k' = { k with
        proc := update k.proc p { k.proc p with
          ofile := update (k.proc p).ofile fd (some f) } } ∧
      KernelInv z k' tab P H G) k := by
  refine fdalloc_spec.imp fun r k' hr => ?_
  rcases hr with hr | ⟨fd, hfd, hr, hnone, hk'⟩
  · exact Or.inl hr
  · refine Or.inr ⟨fd, hfd, hr, hnone, hk', ?_⟩
    rw [hk']
    refine h.setFd k.file p fd _ (by simp [hst]) (by simp [hst]) ?_
    have hrefs := fdRefs_update k.proc
      { k.proc p with ofile := update (k.proc p).ofile fd (some f) } hp hfd rfl
    rw [hnone, single_none, add_zero, single_some] at hrefs
    rw [hrefs, add_assoc, Multiset.singleton_add]
    exact h.files

/-- Giving a descriptor up: its reference is held now. -/
lemma setFd_none (h : KernelInv z k tab P H G) (hp : p < NPROC)
    (hst : (k.proc p).state = .running) (hfd : fd < NOFILE) (hf : (k.proc p).ofile fd = some f) :
    KernelInv z { k with
      proc := update k.proc p { k.proc p with
        ofile := update (k.proc p).ofile fd none } } tab P (f ::ₘ H) G := by
  refine h.setFd k.file p fd _ (by simp [hst]) (by simp [hst]) ?_
  have hrefs := fdRefs_update k.proc
    { k.proc p with ofile := update (k.proc p).ofile fd none } hp hfd rfl
  rw [hf, single_none, add_zero, single_some] at hrefs
  rw [← Multiset.singleton_add, ← add_assoc, hrefs]
  exact h.files

/-- Closing a file whose reference is held. -/
lemma fileclose_held (h : KernelInv z k tab P (f ::ₘ H) G) :
    Returns (fileclose f) (fun _ k' => ∃ P', KernelInv z k' tab P' H G ∧ Quiet k k') k := by
  have hf := h.files
  rw [Multiset.add_cons] at hf
  refine (fileclose_spec h.mem hf).imp ?_
  rintro _ k' ⟨P', hm', hf', hq⟩
  refine ⟨P', h.quiet hq hm' ?_, hq⟩
  rw [hq.fdRefs]
  exact hf'

section

variable (h : KernelInv z k tab P H G)
include h

lemma sysDup_spec (hp : p < NPROC) (hst : (k.proc p).state = .running) (fd : ℤ) :
    Returns (sysDup p fd) (fun _ k' => Good z H G p k') k := by
  have hgood : Good z H G p k := ⟨⟨tab, P, h⟩, by simp [hst]⟩
  simp only [Returns, sysDup, argfd, wp_bind]
  refine wp_ite.mpr ⟨fun _ => hgood, fun hfd => ?_⟩
  simp only [wp_bind, wp_get, wp_pure]
  cases hof : (k.proc p).ofile fd.toNat with
  | none => exact hgood
  | some f =>
    have hlt : fd.toNat < NOFILE := by omega
    have hmem : f ∈ fdRefs k.proc + H := Multiset.mem_add.mpr (Or.inl (mem_fdRefs hp hlt hof))
    simp only [wp_bind]
    refine fdalloc_spec.imp fun r k' hr => ?_
    rcases hr with ⟨rfl, rfl⟩ | ⟨fd', hfd', rfl, hnone, rfl⟩
    · rw [wp_ite_pos (by decide)]
      exact hgood
    · rw [wp_ite_neg (by omega)]
      simp only [wp_bind]
      refine (filedup_spec (k := { k with proc := update k.proc p { k.proc p with
        ofile := update (k.proc p).ofile fd' (some f) } }) h.files hmem).imp ?_
      rintro _ k₂ ⟨hk₂, hf₂⟩
      rw [hk₂] at hf₂ ⊢
      refine ⟨⟨tab, P, h.setFd _ p fd' _ (by simp [hst]) (by simp [hst]) ?_⟩, ?_⟩
      · have hrefs := fdRefs_update k.proc
          { k.proc p with ofile := update (k.proc p).ofile fd' (some f) } hp hfd' rfl
        rw [hnone, single_none, add_zero, single_some] at hrefs
        rw [hrefs, add_assoc, add_left_comm, Multiset.singleton_add]
        exact hf₂
      · simp [hst]

lemma sysClose_spec (hp : p < NPROC) (hst : (k.proc p).state = .running) (fd : ℤ) :
    Returns (sysClose p fd) (fun _ k' => Good z H G p k') k := by
  have hgood : Good z H G p k := ⟨⟨tab, P, h⟩, by simp [hst]⟩
  simp only [Returns, sysClose, argfd, wp_bind]
  refine wp_ite.mpr ⟨fun _ => hgood, fun hfd => ?_⟩
  simp only [wp_bind, wp_get, wp_pure]
  cases hof : (k.proc p).ofile fd.toNat with
  | none => exact hgood
  | some f =>
    simp only [wp_bind, wp_setProc]
    refine (fileclose_held (setFd_none h hp hst (by omega) hof)).imp ?_
    rintro _ k' ⟨P', hinv, hq⟩
    refine ⟨⟨tab, P', hinv⟩, ?_⟩
    rw [hq.running (p := p) (by simp [hst])]
    decide

lemma sysOpen_spec (hp : p < NPROC)
    (hst : (k.proc p).state = .running) (found : Option Found) (omode : BitVec 32) :
    Returns (sysOpen p found omode) (fun _ k' => Good z H G p k') k := by
  have hgood : Good z H G p k := ⟨⟨tab, P, h⟩, by simp [hst]⟩
  cases found with
  | none => exact hgood
  | some found =>
    obtain ⟨ip, major⟩ := found
    simp only [Returns, sysOpen]
    refine wp_ite.mpr ⟨fun _ => hgood, fun hmajor => ?_⟩
    simp only [wp_bind]
    refine (filealloc_spec h.files).imp fun r k₁ hr => ?_
    rcases hr with ⟨rfl, rfl⟩ | ⟨f, x, rfl, hf, -, ht, hr, rfl, hf₁⟩
    · exact hgood
    have h₁ : KernelInv z { k with file := update k.file f x } tab P (f ::ₘ H) G :=
      ⟨h.mem, h.slot, by rw [Multiset.add_cons]; exact hf₁⟩
    simp only [wp_bind]
    refine (fdalloc_held h₁ hp hst).imp fun fd k₂ hr₂ => ?_
    rcases hr₂ with ⟨rfl, rfl⟩ | ⟨fd, hfd, rfl, -, rfl, h₂⟩
    · rw [wp_ite_pos (by decide)]
      simp only [wp_bind]
      refine (fileclose_held h₁).imp ?_
      rintro _ k₃ ⟨P₃, h₃, hq₃⟩
      refine ⟨⟨tab, P₃, h₃⟩, ?_⟩
      rw [hq₃.running (p := p) hst]
      decide
    · rw [wp_ite_neg (by omega)]
      have hset : ∀ y : File, y.type ≠ .pipe → y.ref = 1 →
          FileInv (update k.file f y) k.pipe P (fdRefs (update k.proc p
            { k.proc p with ofile := update (k.proc p).ofile fd (some f) }) + H) := by
        intro y hy hyr
        have hinv := h₂.files.setType (f := f) (x := y) hf (by simp [ht]) hy (by simp [hr, hyr])
          (by simp [hr])
        simpa using hinv
      cases major with
      | none | some mj =>
        simp only [wp_setFile, wp_bind, wp_pure, update_self, update_idem]
        exact ⟨⟨tab, P, h₂.mem, h₂.slot, hset _ (by simp) hr⟩, by simp [hst]⟩

end

/-- Closing two files whose references are held. -/
lemma close_both {g : ℕ} (h : KernelInv z k tab P (f ::ₘ g ::ₘ H) G)
    (hst : (k.proc p).state = .running) :
    Returns (do fileclose f; fileclose g; return (-1 : ℤ)) (fun _ k' => Good z H G p k') k := by
  simp only [Returns, wp_bind]
  refine (fileclose_held h).imp ?_
  rintro _ k₁ ⟨P₁, h₁, hq₁⟩
  refine (fileclose_held h₁).imp ?_
  rintro _ k₂ ⟨P₂, h₂, hq₂⟩
  refine ⟨⟨tab, P₂, h₂⟩, ?_⟩
  rw [(hq₁.trans hq₂).running hst]
  decide

lemma sysPipe_spec (h : KernelInv z k tab P H G) (hp : p < NPROC)
    (hst : (k.proc p).state = .running) (fdarray : ℕ) :
    Returns (sysPipe p fdarray) (fun _ k' => Good z H G p k') k := by
  simp only [Returns, sysPipe, wp_bind]
  refine (pipealloc_spec h.mem h.files).imp ?_
  rintro r k₁ ⟨P₁, hm₁, hq₁, hr⟩
  have hst₁ := hq₁.running hst
  rcases hr with ⟨rfl, hf₁⟩ | ⟨rf, wf, rfl, hf₁⟩
  · refine ⟨⟨tab, P₁, h.quiet hq₁ hm₁ ?_⟩, by simp [hst₁]⟩
    rw [hq₁.fdRefs]
    exact hf₁
  have h₁ : KernelInv z k₁ tab P₁ (rf ::ₘ wf ::ₘ H) G := by
    refine h.quiet hq₁ hm₁ ?_
    rw [hq₁.fdRefs, Multiset.add_cons, Multiset.add_cons]
    exact hf₁
  simp only [wp_bind]
  refine (fdalloc_held h₁ hp hst₁).imp fun fd0 k₂ hr₂ => ?_
  rcases hr₂ with ⟨rfl, rfl⟩ | ⟨fd0, hfd0, rfl, -, hk₂, h₂⟩
  · rw [if_pos (by decide), wp_bind, wp_pure, wp_ite_pos (Or.inl (by decide)), if_neg (by decide)]
    exact close_both h₁ hst₁
  have hst₂ : (k₂.proc p).state = .running := by simp [hk₂, hst₁]
  have hof₂ : (k₂.proc p).ofile fd0 = some rf := by simp [hk₂]
  rw [if_neg (by omega), wp_bind]
  refine (fdalloc_held h₂ hp hst₂).imp fun fd1 k₃ hr₃ => ?_
  rcases hr₃ with ⟨rfl, rfl⟩ | ⟨fd1, hfd1, rfl, hnone₂, hk₃, h₃⟩
  · rw [wp_ite_pos (Or.inr (by decide)), if_pos (by omega), wp_bind, wp_setProc, Int.toNat_natCast]
    exact close_both (setFd_none h₂ hp hst₂ hfd0 hof₂) (by simp [hst₂])
  have hne : fd0 ≠ fd1 := by
    rintro rfl
    exact absurd (hnone₂.symm.trans hof₂) (by simp)
  have hst₃ : (k₃.proc p).state = .running := by simp [hk₃, hst₂]
  have hof0 : (k₃.proc p).ofile fd0 = some rf := by simp [hk₃, update_of_ne hne, hof₂]
  have hof1 : (k₃.proc p).ofile fd1 = some wf := by simp [hk₃]
  rw [wp_ite_neg (by omega), wp_bind, wp_get, wp_bind, wp_onMem]
  -- After both copies the memory has changed, and nothing else.
  have hcopy : ∀ (m : Mem) (tab' : ℕ → Option PageTable) (r : ℤ),
      KernelInv z { k₃ with mem := m } tab' P₁ H G →
      wp (if r < 0 then do
          setProc p fun q => { q with ofile := update q.ofile (fd0 : ℤ).toNat none }
          setProc p fun q => { q with ofile := update q.ofile (fd1 : ℤ).toNat none }
          fileclose rf
          fileclose wf
          return (-1 : ℤ)
        else return 0) (fun _ k' => Good z H G p k') (fun _ => False) { k₃ with mem := m } := by
    intro m tab' r hinv
    by_cases hr : r < 0
    · rw [wp_ite_pos hr, wp_bind, wp_setProc, wp_bind, wp_setProc, Int.toNat_natCast,
        Int.toNat_natCast]
      have h₄ := setFd_none hinv hp hst₃ hfd0 hof0
      have h₅ := setFd_none h₄ hp (by simp [hst₃]) hfd1 (f := wf)
        (by simp [update_of_ne hne.symm, hof1])
      rw [Multiset.cons_swap] at h₅
      exact close_both h₅ (by simp [hst₃])
    · rw [wp_ite_neg hr]
      exact ⟨⟨tab', P₁, hinv⟩, by simp [hst₃]⟩
  refine (copyout_spec h₃ hp (by simp [hst₃]) _ _ _).imp ?_
  rintro r₄ m₄ ⟨tab₄, h₄⟩
  by_cases hr₄ : r₄ < 0
  · rw [if_pos hr₄, wp_bind, wp_pure]
    exact hcopy m₄ tab₄ r₄ h₄
  · rw [if_neg hr₄, wp_bind, wp_onMem]
    refine (copyout_spec h₄ hp (by simp [hst₃]) _ _ _).imp ?_
    rintro r₅ m₅ ⟨tab₅, h₅⟩
    exact hcopy m₅ tab₅ r₅ h₅

/-! ## `fork` -/

/-- How many of the descriptors from `i` up to `i + n` are the file `f`. -/
def fdCount (ofile : ℕ → Option ℕ) (i n f : ℕ) : ℕ :=
  (List.range' i n).countP fun fd => ofile fd = some f

/-- The child gets a reference to each open file of the parent. -/
lemma dupFiles_spec (hp : p < NPROC) (hnp : np < NPROC) (hne : p ≠ np) (n : ℕ) {i : ℕ}
    {k : Kernel} (h : KernelInv z k tab P H G) (hst : (k.proc np).state = .used)
    (hi : i + n = NOFILE) (hnone : ∀ fd, i ≤ fd → fd < NOFILE → (k.proc np).ofile fd = none) :
    Returns (dupFiles p np n i) (fun _ k' => KernelInv z k' tab P H G ∧ k'.mem = k.mem ∧
      k'.nextpid = k.nextpid ∧
      (∀ f, k'.file f = { k.file f with
        ref := (k.file f).ref + fdCount (k.proc p).ofile i n f }) ∧
      ∃ of, k'.proc = update k.proc np { k.proc np with ofile := of } ∧
        (∀ fd < i, of fd = (k.proc np).ofile fd) ∧
        ∀ fd, i ≤ fd → fd < NOFILE → of fd = (k.proc p).ofile fd) k := by
  induction n generalizing i k with
  | zero =>
    exact ⟨h, rfl, rfl, fun _ => rfl, (k.proc np).ofile, by simp, fun _ _ => rfl, fun _ _ _ => by omega⟩
  | succ n ih =>
    simp only [Returns, dupFiles, wp_bind, wp_get]
    cases hof : (k.proc p).ofile i with
    | none =>
      refine (ih h hst (by omega) fun fd hfd hlt => hnone fd (by omega) hlt).imp ?_
      rintro _ k₃ ⟨h₃, hm₃, hn₃, hf₃, of, hp₃, hlo, hhi⟩
      refine ⟨h₃, hm₃, hn₃, fun f => ?_, of, hp₃,
          fun fd hfd => hlo fd (by omega), fun fd hle hlt => ?_⟩
      · rw [hf₃, fdCount, fdCount, List.range'_succ, List.countP_cons_of_neg (by simp [hof])]
      · by_cases hfi : fd = i
        · rw [hfi, hlo i (by omega), hof, hnone i le_rfl (by omega)]
        · exact hhi fd (by omega) hlt
    | some f =>
      have hlt : i < NOFILE := by omega
      have hmem : f ∈ fdRefs k.proc + H := Multiset.mem_add.mpr (Or.inl (mem_fdRefs hp hlt hof))
      simp only [wp_bind]
      refine (filedup_spec h.files hmem).imp ?_
      rintro _ k₁ ⟨hk₁, hf₁⟩
      rw [hk₁] at hf₁ ⊢
      rw [wp_setProc]
      have hrefs := fdRefs_update k.proc
        { k.proc np with ofile := update (k.proc np).ofile i (some f) } hnp hlt rfl
      rw [hnone i le_rfl hlt, single_none, add_zero, single_some] at hrefs
      have h₂ := h.setFd _ np i (some f) (by simp [hst]) (by simp [hst]) (by
        rw [hrefs, add_assoc, add_left_comm, Multiset.singleton_add]
        exact hf₁)
      have hrest : ∀ fd, i + 1 ≤ fd → fd < NOFILE →
          (update (k.proc np).ofile i (some f)) fd = none := fun fd hfd hlt' =>
        (update_of_ne (by omega) ..).trans (hnone fd (by omega) hlt')
      refine (ih h₂ (by simp [hst]) (by omega) (by simpa using hrest)).imp ?_
      rintro _ k₃ ⟨h₃, hm₃, hn₃, hf₃, of, hp₃, hlo, hhi⟩
      refine ⟨h₃, hm₃, hn₃, fun g => ?_, of, ?_, fun fd hfd => ?_, fun fd hle hlt' => ?_⟩
      · rw [hf₃]
        dsimp only
        rw [update_of_ne hne, fdCount, fdCount, List.range'_succ, List.countP_cons, hof]
        by_cases hg : g = f
        · rw [hg, update_self, if_pos (by simp)]
          dsimp only
          rw [add_assoc, add_comm 1]
        · rw [update_of_ne hg, if_neg (by simpa using Ne.symm hg), add_zero]
      · rw [hp₃]
        simp
      · rw [hlo fd (by omega)]
        dsimp only
        rw [update_self]
        exact update_of_ne (by omega) ..
      · by_cases hfi : fd = i
        · rw [hfi, hlo i (by omega)]
          dsimp only
          rw [update_self]
          exact (update_self ..).trans hof.symm
        · rw [hhi fd (by omega) hlt']
          dsimp only
          rw [update_of_ne hne]

/-- What a `kfork` that fails leaves: it has used up a pid, and nothing else. -/
structure Unforked (z : Prop) (k : Kernel) (tab : ℕ → Option PageTable) (P : Finset ℕ)
    (H G : Multiset ℕ) (k' : Kernel) : Prop where
  inv : KernelInv z k' tab P H G
  frame : Frame k.mem k'.mem (usedPages k.proc tab (P.val + G))
  file : k'.file = k.file
  unused : ∀ i, (k'.proc i).state = .unused ↔ (k.proc i).state = .unused
  same : ∀ i, (k.proc i).state ≠ .unused → k'.proc i = k.proc i

/-- The child `np` of `p` after `forkThen`, with the page table `T`. -/
structure ForkedTo (z : Prop) (k : Kernel) (tab : ℕ → Option PageTable) (P : Finset ℕ)
    (H G : Multiset ℕ) (p np : ℕ) (T : PageTable) (k' : Kernel) : Prop where
  lt : np < NPROC
  new : (k.proc np).state = .unused
  inv : KernelInv z k' (update tab np (some T)) P H G
  frame : Frame k.mem k'.mem (usedPages k.proc tab (P.val + G))
  other : ∀ i ≠ np, k'.proc i = k.proc i
  child : k'.proc np = { Proc.allocated (k.proc np) k.nextpid (k'.proc np).trapframe T.root with
    sz := (k.proc p).sz, ofile := (k'.proc np).ofile }
  ofile : ∀ fd < NOFILE, (k'.proc np).ofile fd = (k.proc p).ofile fd
  file : ∀ f, k'.file f = { k.file f with
    ref := (k.file f).ref + fdCount (k.proc p).ofile 0 NOFILE f }
  copied : ∃ T₀ g, tab p = some T₀ ∧ (∀ v < UPAGES, g v = none) ∧
    Copied T₀.leaf g T.leaf (pagesOf (k.proc p).sz) ∧
    SamePages k'.mem.page T₀ T (pagesOf (k.proc p).sz)
  regs : ∃ b, k'.mem.page (k'.proc np).trapframe =
    (Bytes.blit b 0 (k.mem.page (k.proc p).trapframe) 0 288).put64 112 0

/-- The slot `np` after `allocproc`, with the page table `T`, which has no user pages yet. -/
structure Allocated (z : Prop) (k : Kernel) (tab : ℕ → Option PageTable) (P : Finset ℕ)
    (H G : Multiset ℕ) (np : ℕ) (T : PageTable) (k₁ : Kernel) : Prop where
  lt : np < NPROC
  new : (k.proc np).state = .unused
  clean : (k.proc np).Clean
  inv : KernelInv z k₁ (update tab np (some T)) P H G
  frame : Frame k.mem k₁.mem (usedPages k.proc tab (P.val + G))
  other : ∀ i ≠ np, k₁.proc i = k.proc i
  slot : k₁.proc np = Proc.allocated (k.proc np) k.nextpid (k₁.proc np).trapframe T.root
  file : k₁.file = k.file
  none : tab np = none

namespace Allocated

variable {T T' : PageTable} {k₁ : Kernel} {m₂ : Mem} (ha : Allocated z k tab P H G np T k₁)
include ha

lemma state_ne : (k₁.proc np).state ≠ .unused := by
  rw [ha.slot]
  simp [Proc.allocated]

lemma ofile (fd : ℕ) (hfd : fd < NOFILE) : (k₁.proc np).ofile fd = Option.none := by
  rw [ha.slot]
  exact ha.clean.ofile fd hfd

/-- Before the child there was nothing in its slot, so all pages in use are outside of it. -/
lemma usedPages_eq : usedPages k.proc tab (P.val + G) =
    restPages k₁.proc (update tab np (some T)) np + (P.val + G) := by
  rw [usedPages, sum_slotPages ha.lt, ha.none, slotPages, zero_add]
  congr 1
  exact restPages_congr fun i hi => by rw [update_of_ne hi, ha.other i hi]

/-- `freeproc` after `uvmcopy` has failed. -/
lemma freed (hf : Frame k.mem m₂ (usedPages k.proc tab (P.val + G)))
    (hm : MemInv m₂ k₁.proc (update (update tab np (some T)) np (some T')) (P.val + G)) :
    Returns (freeproc np) (fun _ k' => Unforked z k tab P H G k') { k₁ with mem := m₂ } := by
  refine (freeproc_spec (k := { k₁ with mem := m₂ }) hm ha.lt (update_self ..)).imp ?_
  rintro _ k₃ ⟨m₃, hk₃, hm₃, hf₃⟩
  rw [hk₃] at hm₃ ⊢
  have hok : SlotOk z (k₁.proc np).freed := .freed ha.ofile (by rw [ha.slot]; exact ha.clean.parent)
    (by rw [ha.slot]; exact ha.clean.cwd)
  have h₃ := ha.inv.set (n := k₁.nextpid) hok rfl hm₃
  rw [update_idem, update_idem, (update_eq_self_iff (f := tab)).mpr ha.none.symm] at h₃
  refine ⟨h₃, ?_, ha.file, fun i => ?_, fun i hi => ?_⟩
  · refine hf.trans (hf₃.mono (le_of_eq (ha.usedPages_eq.trans ?_)))
    congr 1
    exact restPages_congr fun i hi => by simp [update_of_ne hi]
  · dsimp only
    by_cases hin : i = np
    · rw [hin, update_self]
      exact iff_of_true rfl ha.new
    · rw [update_of_ne hin, ha.other i hin]
  · have hin : i ≠ np := fun hin => hi (hin ▸ ha.new)
    exact (update_of_ne hin ..).trans (ha.other i hin)

/-- The registers and the open files, after `uvmcopy` from the table `T₀` of `p`. -/
lemma copied {T₀ : PageTable} (hp : p < NPROC) (hne : p ≠ np) (hT₀ : tab p = some T₀)
    (hroot : T'.root = T.root) (hleaf : ∀ v < UPAGES, T.leaf v = Option.none)
    (hsz : (k.proc p).sz ≤ TRAPFRAME) (hf : Frame k.mem m₂ (usedPages k.proc tab (P.val + G)))
    (hm : MemInv m₂ (update k₁.proc np { k₁.proc np with sz := (k₁.proc p).sz })
      (update (update tab np (some T)) np (some T')) (P.val + G))
    (hc : Copied T₀.leaf T.leaf T'.leaf (pagesOf (k.proc p).sz))
    (hsame : SamePages m₂.page T₀ T' (pagesOf (k.proc p).sz)) :
    Returns (do
      setProc np fun q => { q with sz := (k₁.proc p).sz }
      onMem (modify fun m =>
        m.write (k₁.proc np).trapframe (((m.page (k₁.proc np).trapframe).blit 0
          (m.page (k₁.proc p).trapframe) 0 288).put64 112 0))
      dupFiles p np NOFILE 0) (fun _ k' => ForkedTo z k tab P H G p np T' k')
      { k₁ with mem := m₂ } := by
  have hproc := ha.other p hne
  simp only [Returns, wp_bind, wp_setProc, wp_onMem, wp_modify]
  have hok : SlotOk z { k₁.proc np with sz := (k₁.proc p).sz } :=
    .of_live ha.state_ne (by rw [ha.slot]; simp [Proc.allocated])
  have h₂ := ha.inv.set (n := k₁.nextpid) hok rfl hm
  have hst₂ : (update k₁.proc np { k₁.proc np with sz := (k₁.proc p).sz } np).state = .used := by
    rw [update_self, ha.slot]
    rfl
  have hm₃ := h₂.mem.writeTrapframe ha.lt (by simp [ha.state_ne])
    (((m₂.page (k₁.proc np).trapframe).blit 0 (m₂.page (k₁.proc p).trapframe) 0 288).put64 112 0)
  have hf₃ := h₂.mem.frame_trapframe ha.lt (update_self ..)
    (((m₂.page (k₁.proc np).trapframe).blit 0 (m₂.page (k₁.proc p).trapframe) 0 288).put64 112 0)
  dsimp only at hm₃ hf₃
  rw [update_self] at hm₃ hf₃
  rw [MemInv.restPages_update] at hf₃
  refine (dupFiles_spec hp ha.lt hne NOFILE (h₂.setMem hm₃) hst₂ (Nat.zero_add _)
    fun fd _ hfd => ?_).imp fun _ k₄ hk₄ => ?_
  · dsimp only
    rw [update_self]
    exact ha.ofile fd hfd
  obtain ⟨h₄, hm₄, _, hfile₄, of, hp₄, _, hof₄⟩ := hk₄
  dsimp only at hm₄ hfile₄ hp₄ hof₄
  rw [update_of_ne hne, hproc] at hfile₄ hof₄
  rw [update_idem, update_self] at hp₄
  rw [update_idem] at h₄
  have hchild : k₄.proc np = { k₁.proc np with sz := (k₁.proc p).sz, ofile := of } := by
    rw [hp₄, update_self]
  have htf : (k₄.proc np).trapframe = (k₁.proc np).trapframe := by rw [hchild]
  rw [← hm₄] at hf₃
  -- The pages of the parent are outside of the child.
  have hslot : slotPages (k.proc p) (some T₀) ≤ restPages k₁.proc (update tab np (some T)) np := by
    have hle := le_restPages k₁.proc (update tab np (some T)) hp hne
    rwa [update_of_ne hne, hT₀, hproc] at hle
  have hrest : restPages k₁.proc (update tab np (some T)) np ≤ T'.userPages +
      (restPages k₁.proc (update tab np (some T)) np + (P.val + G)) :=
    (Multiset.le_add_right _ _).trans (Multiset.le_add_left _ _)
  refine ⟨ha.lt, ha.new, h₄, ?_, fun i hi => ?_, ?_, fun fd hfd => ?_, fun f => ?_,
    ⟨T₀, T.leaf, hT₀, hleaf, hc, ?_⟩, m₂.page (k₁.proc np).trapframe, ?_⟩
  · refine hf.trans (hf₃.mono ?_)
    rw [ha.usedPages_eq]
    exact Multiset.le_add_left _ _
  · rw [hp₄, update_of_ne hi, ha.other i hi]
  · rw [htf, hroot, hchild, ha.slot, hproc]
    rfl
  · rw [hchild]
    exact hof₄ fd (Nat.zero_le fd) hfd
  · rw [hfile₄, ha.file]
  · refine hsame.frame (pagesOf_le hsz) (hf₃.mono (Multiset.le_add_right _ _)) (hf₃.mono ?_)
    exact ((Multiset.le_add_right _ _).trans (Multiset.le_add_left _ _)).trans (hslot.trans hrest)
  · have hmem : (k.proc p).trapframe ∈ usedPages k.proc tab (P.val + G) := by
      rw [ha.usedPages_eq]
      refine Multiset.mem_add.mpr (Or.inl (Multiset.mem_of_le hslot ?_))
      simp [slotPages]
    rw [htf, hm₄, Mem.write_page_self, hproc, hf.on _ hmem]

end Allocated

/-- The part of `kfork` that may fail. -/
lemma forkThen_spec {α : Type} {fail : KernelM α} {next : ℕ → Kernel → KernelM α}
    {Q : α → Kernel → Prop} (h : KernelInv z k tab P H G) (hp : p < NPROC)
    (hst : (k.proc p).state = .running)
    (hfail : ∀ k', Unforked z k tab P H G k' → Returns fail Q k')
    (hnext : ∀ np T k₁ k', ForkedTo z k tab P H G p np T k' → k₁.proc p = k.proc p →
      (k₁.proc np).pid = k.nextpid → Returns (next np k₁) Q k') :
    Returns (forkThen p fail next) Q k := by
  simp only [Returns, forkThen, wp_bind]
  refine (allocproc_spec h).imp ?_
  rintro r k₁ ⟨hf₁, hr⟩
  rcases hr with ⟨rfl, h₁, -, hfile, hun, hsame⟩ |
    ⟨np, T, m₁, n₁, tf, rfl, hnp, hu, hk₁, h₁, huser⟩
  · exact hfail k₁ ⟨h₁, hf₁, hfile, hun, hsame⟩
  have hne : p ≠ np := by
    rintro rfl
    simp [hst] at hu
  have hnp₁ : k₁.proc np = Proc.allocated (k.proc np) k.nextpid tf T.root := by simp [hk₁]
  have ha : Allocated z k tab P H G np T k₁ := ⟨hnp, hu, ((h.slot np hnp).clean hu).1, h₁, hf₁,
    fun i hi => by simp [hk₁, update_of_ne hi], by rw [hnp₁]; rfl, by rw [hk₁],
    h.mem.tab_eq_none hnp hu⟩
  have hproc₁ := ha.other p hne
  obtain ⟨T₀, hT₀, -, hroot₀, huser₀⟩ := h₁.mem.tab_isSome hp (by simp [hproc₁, hst])
  simp only [wp_bind, wp_get, wp_onMem]
  have hcopy := h₁.mem.uvmcopy hp hnp hne hT₀ (T := T) (by simp) huser₀
    (by rw [hnp₁]; exact huser)
  rw [hroot₀, show T.root = (k₁.proc np).pagetable by rw [hnp₁]; rfl] at hcopy
  refine hcopy.imp ?_
  rintro r m₂ ⟨T', hr', hf₂, hres, hput⟩
  have hpt : (k₁.proc np).pagetable ≠ 0 := (h₁.mem.tab_isSome hnp ha.state_ne).choose_spec.2.1
  have hf : Frame k.mem m₂ (usedPages k.proc tab (P.val + G)) := by
    refine hf₁.trans (hf₂.mono ?_)
    rw [ha.usedPages_eq]
    exact Multiset.le_cons_self _ _
  rcases hres with ⟨rfl, hu'⟩ | ⟨rfl, hu', hc, hsame⟩
  · have hsz : (k₁.proc np).sz = 0 := by rw [hnp₁]; exact ha.clean.sz
    have hm := hput (k₁.proc np) rfl ⟨ha.state_ne, hpt, hr', by rw [hsz]; exact hu'⟩
    rw [update_eq_self] at hm
    rw [wp_ite_pos (by decide), wp_bind]
    exact (ha.freed hf hm).imp fun _ k' hk' => hfail k' hk'
  · rw [wp_ite_neg (by decide)]
    have hm := hput { k₁.proc np with sz := (k₁.proc p).sz } rfl ⟨ha.state_ne, hpt, hr', hu'⟩
    rw [hproc₁] at hc hsame huser₀
    rw [update_of_ne hne] at hT₀
    have hchild := ha.copied hp hne hT₀ (by rw [hr', hnp₁]; rfl)
      (fun v hv => huser.eq_none (Nat.zero_le v) hv) huser₀.size_le hf hm hc hsame
    simp only [Returns, wp_bind, wp_setProc, wp_onMem, wp_modify] at hchild ⊢
    exact wp.imp hchild fun _ k' hk' => hnext np T' k₁ k' hk' hproc₁ (by rw [hnp₁]; rfl)

/-- No slot is left for a new process. -/
def NoSlot (k : Kernel) : Prop := ∀ i < NPROC, (k.proc i).state ≠ .unused

/-- What `freeproc` does whatever is in the slot: it does not undo that memory has run out. -/
lemma freeproc_effect {k : Kernel} : wp (freeproc p) (fun _ k' => (k'.proc p).state = .unused ∧
    (k.mem.denied = true → k'.mem.denied = true)) (fun _ => True) k := by
  have honMem : ∀ {x : MemM Unit} {k : Kernel}, Free x k.mem →
      wp (onMem x) (fun _ k' => k.mem.denied = true → k'.mem.denied = true) (fun _ => True) k := by
    intro x k hx
    rw [wp_onMem]
    refine wp.imp hx fun _ m' hm' hd => by_contra fun hne => ?_
    exact absurd (hm' (by simpa using hne)).1 (by simp [hd])
  have hrest : ∀ k : Kernel, wp (do
      let pt := ((← get).proc p).pagetable
      if pt ≠ 0 then onMem (procFreepagetable pt ((← get).proc p).sz)
      setProc p fun q => { q with
        pagetable := 0, sz := 0, pid := 0, chan := 0, killed := false, xstate := 0, state := .unused })
      (fun _ k' => (k'.proc p).state = .unused ∧ (k.mem.denied = true → k'.mem.denied = true))
      (fun _ => True) k := by
    intro k
    simp only [wp_bind, wp_get]
    refine wp_ite.mpr ⟨fun _ => ?_, fun _ => by simp⟩
    rw [wp_bind, wp_get, wp_bind]
    exact (honMem procFreepagetable_free).imp fun _ _ hd => by simpa using hd
  simp only [freeproc, wp_bind, wp_get]
  refine wp_ite.mpr ⟨fun _ => ?_, fun _ => hrest _⟩
  rw [wp_bind]
  exact (honMem kfree_free).imp fun _ k₁ hd => (hrest _).imp fun _ _ hk => ⟨hk.1, fun h => hk.2 (hd h)⟩

/-- `allocproc` fails for want of a slot or of memory. -/
lemma allocproc_denied : wp allocproc (fun r k' => r = none → NoSlot k ∨ k'.mem.denied = true)
    (fun _ => True) k := by
  simp only [allocproc, wp_bind, wp_get]
  cases hfind : (List.range NPROC).find? fun p => (k.proc p).state = .unused with
  | none =>
    refine fun _ => Or.inl fun i hi hu => ?_
    simpa [hu] using List.find?_eq_none.mp hfind i (List.mem_range.mpr hi)
  | some p =>
    simp only [allocpid, wp_bind, wp_get, wp_modify, wp_pure, wp_setProc, wp_onMem]
    refine wp.imp kalloc_honest fun tf m₁ htf => wp_ite.mpr ⟨fun h0 => ?_, fun _ => ?_⟩
    · rw [wp_bind]
      refine freeproc_effect.imp fun _ _ hk _ => Or.inr (hk.2 ?_)
      exact denied_of_not (fun hd => (htf hd).2) (not_not.mpr h0)
    · simp only [wp_bind, wp_onMem, wp_setProc]
      refine wp.imp procPagetable_honest fun pt m₂ hpt => wp_ite.mpr ⟨fun h0 => ?_, fun _ => by simp⟩
      rw [wp_bind]
      refine freeproc_effect.imp fun _ _ hk _ => Or.inr (hk.2 ?_)
      exact denied_of_not (fun hd => (hpt hd).2) (not_not.mpr h0)

/-- So does `kfork`. -/
lemma forkThen_denied : wp (forkThen p (return none) fun np _ => return some np)
    (fun r k' => r = none → NoSlot k ∨ k'.mem.denied = true) (fun _ => True) k := by
  unfold forkThen
  refine wp.bind allocproc_denied ?_
  rintro r k₁ hr
  cases r with
  | none => exact fun _ => hr rfl
  | some np =>
    simp only [wp_bind, wp_get, wp_onMem]
    refine wp.imp uvmcopy_honest fun r m hm => wp_ite.mpr ⟨fun hneg => ?_, fun _ => ?_⟩
    · rw [wp_bind]
      refine freeproc_effect.imp fun _ _ hk _ => Or.inr (hk.2 ?_)
      exact denied_of_not (fun hd => (hm hd).2) (by omega)
    · simp only [wp_bind, wp_setProc, wp_onMem, wp_modify, wp_pure]
      exact (wp_trivial _).imp fun _ _ _ => by simp

/-- The child with the fields that `kfork` sets last. -/
def Proc.forked (q : Proc) (cwd : Option ℕ) (p : ℕ) : Proc :=
  { q with cwd := cwd, parent := some p, state := .runnable }

lemma ForkedTo.finish {T : PageTable} {k' : Kernel} (h : ForkedTo z k tab P H G p np T k')
    (cwd : Option ℕ) :
    KernelInv z { k' with proc := update k'.proc np (Proc.forked (k'.proc np) cwd p) }
      (update tab np (some T)) P H G := by
  have hst : (k'.proc np).state = .used := by
    rw [h.child]
    rfl
  exact h.inv.setSlot (by simp [hst]) (by simp [Proc.forked])
    (.of_live (by simp [Proc.forked]) (by simp [Proc.forked])) rfl rfl rfl rfl

/-- `kfork` makes a process with a copy of the memory, or leaves the slot `UNUSED`.  What was an
`UNUSED` slot before does not become a process that has been killed. -/
lemma kfork_spec (h : KernelInv z k tab P H G) (hp : p < NPROC)
    (hst : (k.proc p).state = .running) :
    Returns (kfork p) (fun _ k' => Good z H G p k' ∧
      ∀ i < NPROC, (k.proc i).state = .unused → z → (k'.proc i).killed = false) k := by
  refine forkThen_spec h hp hst (fun k' hk' => ?_) fun np T k₁ k' hk' hproc₁ hpid => ?_
  · refine ⟨⟨⟨tab, P, hk'.inv⟩, ?_⟩, fun i hi hiu hz =>
      ((hk'.inv.slot i hi).clean ((hk'.unused i).mpr hiu)).2 hz⟩
    rw [hk'.same p (by simp [hst])]
    simp [hst]
  · have hne : p ≠ np := by
      rintro rfl
      exact absurd (hst.symm.trans hk'.new) (by decide)
    simp only [Returns, wp_bind, wp_setProc, wp_pure, update_self, update_idem]
    refine ⟨⟨⟨_, P, hk'.finish _⟩, ?_⟩, fun i hi hiu hz => ?_⟩
    · simp [update_of_ne hne, hk'.other p hne, hst]
    · have hkilled := ((h.slot i hi).clean hiu).2 hz
      by_cases hin : i = np
      · rw [hin, update_self, hk'.child]
        rw [hin] at hkilled
        exact hkilled
      · rw [update_of_ne hin, hk'.other i hin]
        exact hkilled

/-! ## `exit` -/

/-- All open files are closed. -/
lemma closeFiles_spec (hp : p < NPROC) (n : ℕ) {k : Kernel} {P : Finset ℕ}
    (h : KernelInv z k tab P H G) (hst : (k.proc p).state = .running) (hfd : fd + n = NOFILE)
    (hnone : ∀ i < fd, (k.proc p).ofile i = none) :
    Returns (closeFiles p n fd) (fun _ k' => ∃ P', KernelInv z k' tab P' H G ∧
      (k'.proc p).state = .running ∧ k'.initproc = k.initproc ∧
      ∀ i < NOFILE, (k'.proc p).ofile i = none) k := by
  induction n generalizing fd k P with
  | zero => exact ⟨P, h, hst, rfl, fun i hi => hnone i (by omega)⟩
  | succ n ih =>
    simp only [Returns, closeFiles, wp_bind, wp_get]
    cases hof : (k.proc p).ofile fd with
    | none =>
      refine ih h hst (by omega) fun i hi => ?_
      by_cases hif : i = fd
      · rw [hif, hof]
      · exact hnone i (by omega)
    | some f =>
      -- `fileclose` runs before the descriptor is cleared; the reference is the descriptor's.
      have hrefs := fdRefs_update k.proc (o := none)
        { k.proc p with ofile := update (k.proc p).ofile fd none } hp (by omega) rfl
      rw [hof, single_none, add_zero, single_some, add_comm, Multiset.singleton_add] at hrefs
      have hf := h.files
      rw [← hrefs, Multiset.cons_add] at hf
      simp only [wp_bind]
      refine (fileclose_spec h.mem hf).imp ?_
      rintro _ k₁ ⟨P₁, hm₁, hf₁, hq₁⟩
      rw [wp_setProc]
      have hst₁ := hq₁.running hst
      have hfds : fdRefs (update k₁.proc p { k₁.proc p with
          ofile := update (k₁.proc p).ofile fd none }) = fdRefs (update k.proc p
            { k.proc p with ofile := update (k.proc p).ofile fd none }) := by
        refine fdRefs_congr fun i => ?_
        by_cases hip : i = p
        · rw [hip, update_self, update_self, (hq₁.proc p).ofile]
        · rw [update_of_ne hip, update_of_ne hip, (hq₁.proc i).ofile]
      rw [← hfds] at hf₁
      have h₁ : KernelInv z { k₁ with proc := update k₁.proc p { k₁.proc p with
          ofile := update (k₁.proc p).ofile fd none } } tab P₁ H G :=
        ⟨hm₁.setSlot (by simp [hst₁]) (by simp [hst₁]) rfl rfl rfl, slotOk_update
          (fun i hi => (h.slot i hi).woken (hq₁.proc i)) (.of_live (by simp [hst₁]) (by simp [hst₁])) p,
          hf₁⟩
      refine (ih h₁ (by simp [hst₁]) (by omega) fun i hi => ?_).imp
        fun _ k₂ hk₂ => hk₂.imp fun P₂ h₂ => ⟨h₂.1, h₂.2.1, h₂.2.2.1.trans hq₁.initproc, h₂.2.2.2⟩
      dsimp only
      rw [update_self]
      dsimp only
      by_cases hif : i = fd
      · rw [hif, update_self]
      · rw [update_of_ne hif, (hq₁.proc p).ofile]
        exact hnone i (by omega)

/-- Handing the children over keeps the process without files that exits. -/
lemma reparent_spec (n : ℕ) {k : Kernel} (h : KernelInv z k tab P H G)
    (hst : (k.proc p).state = .running) (hn : pp + n = NPROC)
    (hof : ∀ i < NOFILE, (k.proc p).ofile i = none) (hcwd : (k.proc p).cwd = none) :
    Returns (reparent p n pp) (fun _ k' => KernelInv z k' tab P H G ∧
      (k'.proc p).state = .running ∧ (∀ i < NOFILE, (k'.proc p).ofile i = none) ∧
      (k'.proc p).cwd = none) k := by
  induction n generalizing pp k with
  | zero => exact ⟨h, hst, hof, hcwd⟩
  | succ n ih =>
    simp only [Returns, reparent, wp_bind, wp_get]
    by_cases hpar : (k.proc pp).parent = some p
    · rw [if_pos hpar]
      simp only [wp_bind, wp_setProc, wp_wakeup]
      have hne : (k.proc pp).state ≠ .unused := fun hu => by
        have hclean := ((h.slot pp (by omega)).clean hu).1
        exact absurd (hpar.symm.trans hclean.parent) (by simp)
      have h₁ : KernelInv z { k with proc := update k.proc pp { k.proc pp with
          parent := k.initproc } } tab P H G :=
        h.setSlot hne hne ⟨fun hu => absurd hu hne, (h.slot pp (by omega)).zombie⟩ rfl rfl rfl rfl
      have hp₁ : (update k.proc pp { k.proc pp with parent := k.initproc } p).state =
          .running ∧ (∀ i < NOFILE, (update k.proc pp
            { k.proc pp with parent := k.initproc } p).ofile i = none) ∧
          (update k.proc pp { k.proc pp with parent := k.initproc } p).cwd = none := by
        by_cases hpp : p = pp
        · subst hpp
          rw [update_self]
          exact ⟨hst, hof, hcwd⟩
        · rw [update_of_ne hpp]
          exact ⟨hst, hof, hcwd⟩
      have hq := quiet_wakeup { k with proc := update k.proc pp { k.proc pp with
        parent := k.initproc } } (procChan k.initproc) k.pipe k.file k.mem
      have h₂ := h₁.quiet hq (h₁.mem.woken hq.proc) (by rw [hq.fdRefs]; exact h₁.files)
      have hw := hq.proc p
      exact ih h₂ (hq.running hp₁.1) (by omega) (fun i hi => (congrFun hw.ofile i).trans (hp₁.2.1 i hi))
        ((congrArg Proc.cwd hw.same).trans hp₁.2.2)
    · rw [if_neg hpar]
      exact ih h hst (by omega) hof hcwd

section

variable (h : KernelInv z k tab P H G)
include h

/-- **`kexit`** leaves a zombie without files; it panics for the first process only. -/
lemma kexit_spec (hp : p < NPROC) (hst : (k.proc p).state = .running) (status : ℤ) :
    wp (kexit p status) (fun _ k' => Good z H G p k') (fun e => e = "init exiting") k := by
  simp only [kexit, wp_bind, wp_get]
  refine wp_ite.mpr ⟨fun _ => rfl, fun _ => ?_⟩
  simp only [wp_bind]
  refine ((closeFiles_spec hp NOFILE h hst (Nat.zero_add _) fun i hi => absurd hi (by omega)).wp).imp ?_
  rintro _ k₁ ⟨P₁, h₁, hst₁, _, hof₁⟩
  simp only [wp_setProc]
  have hne₁ : (k₁.proc p).state ≠ .unused := by simp [hst₁]
  have h₂ := h₁.setSlot (q := { k₁.proc p with cwd := none }) hne₁ hne₁
    (.of_live hne₁ (by simp [hst₁])) rfl rfl rfl rfl
  refine ((reparent_spec NPROC (p := p) h₂ (by simp [hst₁]) (Nat.zero_add _)
    (fun i hi => by simpa using hof₁ i hi) (by simp)).wp).imp ?_
  rintro _ k₃ ⟨h₃, hst₃, hof₃, hcwd₃⟩
  simp only [wp_get, wp_wakeup]
  have hq := quiet_wakeup k₃ (procChan (k₃.proc p).parent) k₃.pipe k₃.file k₃.mem
  have h₄ := h₃.quiet hq (h₃.mem.woken hq.proc) (by rw [hq.fdRefs]; exact h₃.files)
  have hw := hq.proc p
  refine ⟨⟨tab, P₁, h₄.setSlot (by rw [hq.running hst₃]; decide) (by simp)
    ⟨fun hu => absurd hu (by simp), fun _ => ⟨fun i hi => ?_, ?_⟩⟩ rfl rfl rfl rfl⟩, by simp⟩
  · exact (congrFun hw.ofile i).trans (hof₃ i hi)
  · exact (congrArg Proc.cwd hw.same).trans hcwd₃

/-! ## `wait`, `kill` and traps -/

/-- Reaping a zombie. -/
lemma reap_spec (hpp : pp < NPROC) (hz : (k.proc pp).state = .zombie) :
    Returns (do setProc pp fun q => { q with parent := none }; freeproc pp) (fun _ k' =>
      (∃ tab', KernelInv z k' tab' P H G) ∧ ∀ i ≠ pp, k'.proc i = k.proc i) k := by
  have hne : (k.proc pp).state ≠ .unused := by simp [hz]
  obtain ⟨T, hT, -⟩ := h.mem.tab_isSome hpp hne
  have hm₁ := h.mem.setSlot (q := { k.proc pp with parent := none }) hne hne rfl rfl rfl
  simp only [Returns, wp_bind, wp_setProc]
  refine (freeproc_spec hm₁ hpp hT).imp ?_
  rintro _ k' ⟨m', hk', hm', _⟩
  rw [hk'] at hm' ⊢
  dsimp only at hm' ⊢
  rw [update_self, update_idem] at hm' ⊢
  obtain ⟨hof, hcwd⟩ := (h.slot pp hpp).zombie hz
  exact ⟨⟨_, h.set (.freed hof rfl hcwd) rfl hm'⟩, fun i hi => update_of_ne hi ..⟩

lemma kwait_spec (hp : p < NPROC) (hst : (k.proc p).state = .running) (addr : ℕ) :
    Returns (kwait p addr) (fun _ k' => Good z H G p k') k := by
  have hne : (k.proc p).state ≠ .unused := by simp [hst]
  simp only [Returns, kwait, wp_bind, wp_get]
  cases hfind : (List.range NPROC).find? fun pp =>
      (k.proc pp).parent = some p ∧ (k.proc pp).state = .zombie with
  | some pp =>
    obtain ⟨hpp, hpred⟩ := find_range hfind
    obtain ⟨-, hz⟩ : (k.proc pp).parent = some p ∧ (k.proc pp).state = .zombie := by
      simpa using hpred
    have hpne : p ≠ pp := by
      rintro rfl
      exact absurd (hst.symm.trans hz) (by decide)
    -- What happens once the exit status has been delivered.
    have hreap : ∀ {m : Mem} {tab' : ℕ → Option PageTable} (r : Option ℤ),
        KernelInv z { k with mem := m } tab' P H G →
        wp (do
          setProc pp fun q => { q with parent := none }
          freeproc pp
          return r) (fun _ k' => Good z H G p k') (fun _ => False) { k with mem := m } := by
      intro m tab' r hinv
      have hre := reap_spec hinv hpp hz
      simp only [Returns, wp_bind] at hre ⊢
      refine hre.imp fun _ k' hk' => hk'.imp ?_
      rintro _ k'' ⟨⟨tab'', hinv'⟩, hsame⟩
      refine ⟨⟨tab'', P, hinv'⟩, ?_⟩
      rw [hsame p hpne]
      exact hne
    by_cases haddr : addr ≠ 0
    · simp only [if_pos haddr, wp_bind, wp_onMem]
      refine (copyout_spec h hp hne _ _ _).imp ?_
      rintro r m₁ ⟨tab₁, h₁⟩
      refine wp_ite.mpr ⟨fun _ => ⟨⟨tab₁, P, h₁⟩, hne⟩, fun _ => ?_⟩
      exact hreap _ h₁
    · simp only [if_neg haddr]
      exact hreap _ h
  | none =>
    simp only []
    refine wp_ite.mpr ⟨fun _ => ⟨⟨tab, P, h⟩, hne⟩, fun _ => ?_⟩
    simp only [wp_bind, wp_setProc, wp_pure, update_self, update_idem]
    have hlive : ((k.proc p).sleepPrepare (procChan (some p))).sleep.state = .running ∨
        ((k.proc p).sleepPrepare (procChan (some p))).sleep.state = .sleeping := by
      unfold Proc.sleep
      split
      · exact Or.inr rfl
      · exact Or.inl hst
    have hsame : ((k.proc p).sleepPrepare (procChan (some p))).sleep = { k.proc p with
        state := ((k.proc p).sleepPrepare (procChan (some p))).sleep.state
        chan := procChan (some p) } := by
      unfold Proc.sleep
      split <;> rfl
    have hu : ((k.proc p).sleepPrepare (procChan (some p))).sleep.state ≠ .unused := by
      rcases hlive with hl | hl <;> simp [hl]
    refine ⟨⟨tab, P, h.setSlot hne hu (.of_live hu (by rcases hlive with hl | hl <;> simp [hl]))
      ?_ ?_ ?_ ?_⟩, by simpa using hu⟩
    all_goals rw [hsame]

lemma kkill_spec {pid : ℤ} (hz : z → pid = 0 → ∀ i < NPROC, (k.proc i).state ≠ .unused) :
    Returns (kkill pid) (fun r k' => KernelInv z k' tab P H G ∧
      ((r = -1 ∧ k' = k) ∨ r = 0 ∧ ∃ i < NPROC, (k.proc i).pid = pid ∧
        k' = { k with proc := update k.proc i (k.proc i).kkill })) k := by
  simp only [Returns, kkill, wp_bind, wp_get]
  cases hfind : (List.range NPROC).find? fun p => (k.proc p).pid = pid with
  | none => exact ⟨h, Or.inl ⟨rfl, rfl⟩⟩
  | some i =>
    obtain ⟨hi, hpid⟩ := find_range hfind
    have hpid : (k.proc i).pid = pid := by simpa using hpid
    simp only [wp_bind, wp_setProc, wp_pure]
    have hst : ∀ s, s ≠ .sleeping → s ≠ .runnable →
        ((k.proc i).kkill.state = s ↔ (k.proc i).state = s) := by
      intro s h₁ h₂
      unfold Proc.kkill
      dsimp only
      split
      · next hs => rw [hs]; exact ⟨fun h => absurd h.symm h₂, fun h => absurd h.symm h₁⟩
      · rfl
    have hok : SlotOk z (k.proc i).kkill := by
      refine ⟨fun hu => ?_, fun hzo => (h.slot i hi).zombie ((hst _ (by simp) (by simp)).mp hzo)⟩
      have hu' := (hst _ (by simp) (by simp)).mp hu
      obtain ⟨hclean, -⟩ := (h.slot i hi).clean hu'
      exact ⟨{ hclean with }, fun hz' => absurd hu' (hz hz' (hpid.symm.trans hclean.pid) i hi)⟩
    refine ⟨h.set hok rfl (h.mem.congr (fun j hj => ?_) fun j hj => ?_),
      Or.inr ⟨trivial, i, hi, hpid, rfl⟩⟩
    · by_cases hji : j = i
      · have hslot := h.mem.slot j hj
        rw [hji] at hslot
        rw [hji, update_self]
        cases htab : tab i with
        | none =>
          rw [htab] at hslot
          exact ⟨(hst _ (by simp) (by simp)).mpr hslot.1, hslot.2⟩
        | some T =>
          rw [htab] at hslot
          exact ⟨fun hu => hslot.1 ((hst _ (by simp) (by simp)).mp hu), hslot.2⟩
      · rw [update_of_ne hji]
        exact h.mem.slot j hj
    · by_cases hji : j = i
      · rw [hji, update_self]
        rfl
      · rw [update_of_ne hji]

lemma usertrapFault_spec (hp : p < NPROC) (hst : (k.proc p).state = .running) (va : ℕ) :
    wp (usertrapFault p va) (fun _ k' => Good z H G p k') (fun e => e = "init exiting") k := by
  have hne : (k.proc p).state ≠ .unused := by simp [hst]
  simp only [usertrapFault, wp_bind, wp_get, wp_onMem]
  refine ((vmfault_spec h hp hne va).wp).imp ?_
  rintro r m₁ ⟨tab₁, h₁⟩
  have hexit : ∀ {k' : Kernel}, KernelInv z k' tab₁ P H G → (k'.proc p).state = .running →
      wp (do if ((← get).proc p).killed then kexit p (-1))
        (fun _ k' => Good z H G p k') (fun e => e = "init exiting") k' := by
    intro k' hinv hrun
    simp only [wp_bind, wp_get]
    refine wp_ite.mpr ⟨fun _ => kexit_spec hinv hp hrun _, fun _ => ⟨⟨tab₁, P, hinv⟩, ?_⟩⟩
    simp [hrun]
  by_cases hr : r = 0
  · simp only [if_pos hr, setkilled, wp_bind, wp_setProc]
    have h₂ := h₁.setSlot (q := { k.proc p with killed := true }) hne hne
      (.of_live hne (by simp [hst])) rfl rfl rfl rfl
    exact hexit h₂ (by simp [hst])
  · simp only [if_neg hr]
    exact hexit h₁ hst

end

end Kernel
end Xv6
