import Xv6.Kernel.Files
import Xv6.Kernel.Memory

/-!
# The invariant of the kernel

`KernelInv` joins the accounts of pages and files, and says that `UNUSED` slots are clean.  This file
has the specifications of the functions on files and process slots that the operations are made of.
-/

namespace Xv6

open Finset Function

/-! ## Slots -/

/-- An `UNUSED` slot as `allocproc` expects it, up to `killed`. -/
structure Proc.Clean (q : Proc) : Prop where
  pid : q.pid = 0
  chan : q.chan = 0
  xstate : q.xstate = 0
  sz : q.sz = 0
  parent : q.parent = none
  pagetable : q.pagetable = 0
  trapframe : q.trapframe = 0
  ofile : ∀ fd < NOFILE, q.ofile fd = none
  cwd : q.cwd = none

/-- The slot that `allocproc` returns. -/
def Proc.allocated (q : Proc) (pid : ℤ) (tf pt : ℕ) : Proc :=
  { q with pid := pid, state := .used, trapframe := tf, pagetable := pt }

/-- `wakeup` may have passed the slot. -/
structure Proc.Woken (q q' : Proc) : Prop where
  state : q'.state = q.state ∨ q.state = .sleeping ∧ q'.state = .runnable
  chan : q'.chan = q.chan ∨ q'.chan = 0
  same : q' = { q with state := q'.state, chan := q'.chan }

namespace Proc.Woken

variable {q q' q'' : Proc}

lemma refl (q : Proc) : q.Woken q := ⟨Or.inl rfl, Or.inl rfl, rfl⟩

lemma trans (h : q.Woken q') (h' : q'.Woken q'') : q.Woken q'' where
  state := by
    rcases h.state with hs | ⟨hs, hr⟩
    · rw [← hs]
      exact h'.state
    · refine Or.inr ⟨hs, ?_⟩
      rcases h'.state with hs' | ⟨hs', -⟩
      · rw [hs', hr]
      · exact absurd (hr.symm.trans hs') (by decide)
  chan := by
    rcases h'.chan with hc | hc
    · rw [hc]
      exact h.chan
    · exact Or.inr hc
  same := by
    conv_lhs => rw [h'.same, h.same]

lemma wakeup (q : Proc) (c : ℕ) : q.Woken (q.wakeup c) := by
  unfold Proc.wakeup
  split
  · refine ⟨?_, Or.inr rfl, rfl⟩
    dsimp only
    split
    · exact Or.inr ⟨‹_›, rfl⟩
    · exact Or.inl rfl
  · exact refl q

section

variable (h : q.Woken q')
include h

lemma unused : q'.state = .unused ↔ q.state = .unused := by
  rcases h.state with hs | ⟨hs, hs'⟩
  · rw [hs]
  · rw [hs, hs']
    decide

lemma clean (hq : q.Clean) : q'.Clean := by
  have hchan : q'.chan = 0 := by
    rcases h.chan with hc | hc
    · rw [hc, hq.chan]
    · exact hc
  rw [h.same]
  exact { hq with chan := hchan }

lemma killed : q'.killed = q.killed := by rw [h.same]

lemma ofile : q'.ofile = q.ofile := by rw [h.same]

lemma trapframe : q'.trapframe = q.trapframe := by rw [h.same]

end

end Proc.Woken

/-- Nothing but wakeups has happened to the process table. -/
structure Quiet (k k' : Kernel) : Prop where
  proc : ∀ p, (k.proc p).Woken (k'.proc p)
  initproc : k'.initproc = k.initproc

lemma Quiet.refl (k : Kernel) : Quiet k k := ⟨fun _ => .refl _, rfl⟩

variable {k k' : Kernel} {p fd : ℕ}

lemma Quiet.trans {k'' : Kernel} (h : Quiet k k') (h' : Quiet k' k'') : Quiet k k'' :=
  ⟨fun p => (h.proc p).trans (h'.proc p), h'.initproc.trans h.initproc⟩

/-- The places of the file descriptors of `n` processes with `m` descriptors each. -/
@[irreducible] def fdPlaces (n m : ℕ) : Finset (ℕ × ℕ) := range n ×ˢ range m

lemma mem_fdPlaces {n m : ℕ} : (p, fd) ∈ fdPlaces n m ↔ p < n ∧ fd < m := by
  simp [fdPlaces]

/-- The references that file descriptors are. -/
def fdRefs (proc : ℕ → Proc) : Multiset ℕ :=
  gather (fdPlaces NPROC NOFILE) fun x => (proc x.1).ofile x.2

lemma fdRefs_congr {proc proc' : ℕ → Proc} (h : ∀ p, (proc' p).ofile = (proc p).ofile) :
    fdRefs proc' = fdRefs proc := gather_congr fun x _ => by rw [h]

lemma Quiet.running (h : Quiet k k') (hst : (k.proc p).state = .running) :
    (k'.proc p).state = .running := by
  rcases (h.proc p).state with hs | ⟨hs, -⟩
  · rw [hs, hst]
  · exact absurd (hst.symm.trans hs) (by decide)

lemma Quiet.fdRefs (h : Quiet k k') : Xv6.fdRefs k'.proc = Xv6.fdRefs k.proc :=
  fdRefs_congr fun p => (h.proc p).ofile

lemma mem_fdRefs {proc : ℕ → Proc} {f : ℕ} (hp : p < NPROC) (hfd : fd < NOFILE)
    (hf : (proc p).ofile fd = some f) : f ∈ fdRefs proc :=
  mem_gather.mpr ⟨(p, fd), mem_fdPlaces.mpr ⟨hp, hfd⟩, hf⟩

/-- Changing one descriptor. -/
lemma fdRefs_update (proc : ℕ → Proc) (q : Proc) {o : Option ℕ} (hp : p < NPROC)
    (hfd : fd < NOFILE) (hq : q.ofile = update (proc p).ofile fd o) :
    fdRefs (update proc p q) + single ((proc p).ofile fd) = fdRefs proc + single o := by
  have heq : (fun x : ℕ × ℕ => (update proc p q x.1).ofile x.2) =
      update (fun x : ℕ × ℕ => (proc x.1).ofile x.2) (p, fd) o := by
    funext x
    by_cases hx : x.1 = p
    · rw [hx, update_self, hq]
      by_cases hx' : x.2 = fd
      · rw [hx', update_self, show x = (p, fd) from Prod.ext hx hx', update_self]
      · rw [update_of_ne hx', update_of_ne (by rintro rfl; exact hx' rfl), hx]
    · rw [update_of_ne hx, update_of_ne (by rintro rfl; exact hx rfl)]
  rw [fdRefs, heq]
  exact gather_update (mem_fdPlaces.mpr ⟨hp, hfd⟩) o

/-- What holds of each slot between operations: an `UNUSED` one is clean and a zombie has no files.
If `z` then `killed` is part of what is clean. -/
structure SlotOk (z : Prop) (q : Proc) : Prop where
  clean : q.state = .unused → q.Clean ∧ (z → q.killed = false)
  zombie : q.state = .zombie → (∀ fd < NOFILE, q.ofile fd = none) ∧ q.cwd = none

section Slots

variable {z : Prop} {q q' : Proc}

/-- A process that is neither unused nor a zombie. -/
lemma SlotOk.of_live (hu : q.state ≠ .unused) (hz : q.state ≠ .zombie) : SlotOk z q :=
  ⟨fun h => absurd h hu, fun h => absurd h hz⟩

lemma SlotOk.woken (h : SlotOk z q) (hw : q.Woken q') : SlotOk z q' where
  clean hst := by
    obtain ⟨hc, hk⟩ := h.clean (hw.unused.mp hst)
    refine ⟨hw.clean hc, fun hz => ?_⟩
    rw [hw.killed]
    exact hk hz
  zombie hst := by
    have hst' : q.state = .zombie := by
      rcases hw.state with hs | ⟨-, hs⟩
      · rw [← hs, hst]
      · exact absurd (hs.symm.trans hst) (by decide)
    rw [hw.same]
    exact h.zombie hst'

lemma SlotOk.freed (hof : ∀ fd < NOFILE, q.ofile fd = none) (hpar : q.parent = none)
    (hcwd : q.cwd = none) : SlotOk z q.freed where
  clean _ := ⟨⟨rfl, rfl, rfl, rfl, hpar, rfl, rfl, hof, hcwd⟩, fun _ => rfl⟩
  zombie h := absurd h (by simp [Proc.freed])

lemma slotOk_update {proc : ℕ → Proc} (h : ∀ i < NPROC, SlotOk z (proc i)) (hq : SlotOk z q)
    (p : ℕ) : ∀ i < NPROC, SlotOk z (update proc p q i) :=
  (forall_update_iff proc fun i q => i < NPROC → SlotOk z q).mpr ⟨fun _ => hq, fun i _ => h i⟩

end Slots

lemma fdRefs_update_same {proc : ℕ → Proc} {q : Proc} (hof : q.ofile = (proc p).ofile) :
    fdRefs (update proc p q) = fdRefs proc :=
  fdRefs_congr ((forall_update_iff proc fun i q => q.ofile = (proc i).ofile).mpr
    ⟨hof, fun _ _ => rfl⟩)

section

variable [Layout]

/-- The invariant of the kernel, with `H` the references to files and `G` the pages that are held
outside of the tables. -/
structure KernelInv (z : Prop) (k : Kernel) (tab : ℕ → Option PageTable) (P : Finset ℕ)
    (H G : Multiset ℕ) : Prop where
  mem : MemInv k.mem k.proc tab (P.val + G)
  slot : ∀ p < NPROC, SlotOk z (k.proc p)
  files : FileInv k.file k.pipe P (fdRefs k.proc + H)

/-! ## Rules for the state of the kernel -/

namespace Kernel

variable {α : Type} {Q : α → Kernel → Prop} {E : String → Prop} {k : Kernel}

omit [Layout] in
@[simp] lemma wp_onMem (x : MemM α) :
    wp (onMem x) Q E k ↔ wp x (fun a m => Q a { k with mem := m }) E k.mem := by
  unfold wp onMem
  cases x k.mem <;> rfl

omit [Layout] in
@[simp] lemma wp_setProc {Q : Unit → Kernel → Prop} (p : ℕ) (f : Proc → Proc) :
    wp (setProc p f) Q E k ↔
      Q () { k with proc := update k.proc p (f (k.proc p)) } := Iff.rfl

omit [Layout] in
@[simp] lemma wp_setFile {Q : Unit → Kernel → Prop} (f : ℕ) (g : File → File) :
    wp (setFile f g) Q E k ↔
      Q () { k with file := update k.file f (g (k.file f)) } := Iff.rfl

omit [Layout] in
@[simp] lemma wp_wakeup {Q : Unit → Kernel → Prop} (c : ℕ) :
    wp (wakeup c) Q E k ↔ Q () { k with
      proc := fun p => if p < NPROC then (k.proc p).wakeup c else k.proc p } := Iff.rfl

end Kernel

/-! ## Memory that belongs to no process -/

namespace MemInv

variable {m m' : Mem} {proc proc' : ℕ → Proc} {tab : ℕ → Option PageTable} {R R' : Multiset ℕ}

lemma woken (h : MemInv m proc tab R) (hw : ∀ p, (proc p).Woken (proc' p)) :
    MemInv m proc' tab R := by
  refine h.congr (fun p hp => ?_) fun p _ => (hw p).trapframe
  have hslot := h.slot p hp
  cases htab : tab p with
  | none =>
    rw [htab] at hslot
    rw [(hw p).same]
    exact ⟨(hw p).unused.mpr hslot.1, hslot.2⟩
  | some T =>
    rw [htab] at hslot
    rw [(hw p).same]
    exact ⟨fun hu => hslot.1 ((hw p).unused.mp hu), hslot.2⟩

lemma change (h : MemInv m proc tab R)
    (hused : m'.Used (∑ p ∈ range NPROC, slotPages (proc p) (tab p) + R'))
    (hpage : Frame m m' (∑ p ∈ range NPROC, slotPages (proc p) (tab p))) :
    MemInv m' proc tab R' where
  slot := h.slot
  repr p hp T hT := by
    refine (h.repr p hp T hT).frame hpage ?_
    have hle : slotPages (proc p) (tab p) ≤ ∑ p ∈ range NPROC, slotPages (proc p) (tab p) :=
      single_le_sum (f := fun p => slotPages (proc p) (tab p)) (fun _ _ => Multiset.zero_le _)
        (mem_range.mpr hp)
    rw [hT, slotPages] at hle
    exact (Multiset.le_add_right _ _).trans hle
  used := hused

lemma kfree {pg : ℕ} (h : MemInv m proc tab (pg ::ₘ R)) :
    Returns (Xv6.kfree pg) (fun _ m' => MemInv m' proc tab R ∧
      Frame m m' (usedPages proc tab R)) m := by
  have hused := h.used
  rw [Multiset.add_cons] at hused
  refine (kfree_spec hused).imp ?_
  rintro _ m' ⟨hused', hpage⟩
  exact ⟨h.change hused' (hused.frame_cons hpage (Multiset.le_add_right _ _)),
      hused.frame_cons hpage le_rfl⟩

lemma kalloc (h : MemInv m proc tab R) : Returns Xv6.kalloc (fun r m' =>
    Frame m m' (usedPages proc tab R) ∧
    ((r = 0 ∧ MemInv m' proc tab R) ∨ (IsPhys r ∧ MemInv m' proc tab (r ::ₘ R)))) m := by
  refine (kalloc_spec h.used).imp fun r m' hr => ?_
  rcases hr with ⟨hr, hused, hpage⟩ | ⟨hr, hused, hpage⟩
  · exact ⟨.of_eq hpage, Or.inl ⟨hr, h.change hused (.of_eq hpage)⟩⟩
  · have hf := hused.frame_cons hpage le_rfl
    rw [← Multiset.add_cons] at hused
    exact ⟨hf, Or.inr ⟨hr, h.change hused (hf.mono (Multiset.le_add_right _ _))⟩⟩

/-- Storing into a page that belongs to no table. -/
lemma write {pg : ℕ} (h : MemInv m proc tab R) (hpg : pg ∈ R) (b : Bytes) :
    MemInv (m.write pg b) proc tab R := by
  have hmem : pg ∈ ∑ p ∈ range NPROC, slotPages (proc p) (tab p) + R :=
    Multiset.mem_add.mpr (Or.inr hpg)
  refine h.change (h.used.write hmem b) (.write (h.used.isPhys hmem) (fun hq => ?_) b)
  exact Multiset.disjoint_left.mp (Multiset.nodup_add.mp h.used.nodup).2.2 hq hpg

/-- A function that works on the table of one process. -/
lemma onTable {α : Type} {x : MemM α} {T : PageTable} {p : ℕ} {Q : α → PageTable → Prop}
    (h : MemInv m proc tab R) (hp : p < NPROC) (hT : tab p = some T)
    (hx : ∀ S, Space m T S → Returns x (fun a m' => ∃ T', Space m' T' S ∧ Frame m m' S ∧ Q a T') m) :
    Returns x (fun a m' => ∃ T', Q a T' ∧ Frame m m' R ∧ ∀ q, q.trapframe = (proc p).trapframe →
      SlotTable q (some T') →
      MemInv m' (update proc p q) (update tab p (some T')) R) m := by
  refine (hx _ (h.focus hp hT)).imp ?_
  rintro a m' ⟨T', hs, hf, hq⟩
  refine ⟨T', hq, hf.mono ((Multiset.le_add_left _ _).trans (Multiset.le_cons_self _ _)),
    fun q htf hslot => ?_⟩
  refine h.unfocus hp ?_ (hf.mono ?_) hslot
  · rwa [htf]
  · exact (Multiset.le_add_right _ _).trans (Multiset.le_cons_self _ _)

end MemInv

/-- Fields that do not matter to the memory are changed. -/
lemma MemInv.setSlot {m : Mem} {proc : ℕ → Proc} {tab : ℕ → Option PageTable} {R : Multiset ℕ}
    {p : ℕ} {q : Proc} (h : MemInv m proc tab R) (hst : (proc p).state ≠ .unused)
    (hq : q.state ≠ .unused) (hpt : q.pagetable = (proc p).pagetable)
    (htf : q.trapframe = (proc p).trapframe) (hsz : q.sz = (proc p).sz) :
    MemInv m (update proc p q) tab R := by
  refine h.congr (fun i hi => ?_) fun i hi => ?_
  · by_cases hip : i = p
    · have hslot := h.slot i hi
      rw [hip, update_self]
      rw [hip] at hslot
      cases htab : tab p with
      | none =>
        rw [htab] at hslot
        exact absurd hslot.1 hst
      | some T =>
        rw [htab] at hslot
        rw [SlotTable, hpt, htf, hsz]
        exact ⟨hq, hslot.2⟩
    · rw [update_of_ne hip]
      exact h.slot i hi
  · by_cases hip : i = p
    · rw [hip, update_self, htf]
    · rw [update_of_ne hip]

namespace KernelInv

variable {z : Prop} {k : Kernel} {tab tab' : ℕ → Option PageTable} {P P' : Finset ℕ}
  {H H' G G' : Multiset ℕ} {p : ℕ}

section

variable (h : KernelInv z k tab P H G)
include h

/-- A slot is changed, but not its files. -/
lemma set {m : Mem} {n : ℤ} {q : Proc} (hq : SlotOk z q) (hof : q.ofile = (k.proc p).ofile)
    (hm : MemInv m (update k.proc p q) tab' (P.val + G')) :
    KernelInv z { k with mem := m, nextpid := n, proc := update k.proc p q } tab' P H G' where
  mem := hm
  slot := slotOk_update h.slot hq p
  files := by
    dsimp only
    rw [fdRefs_update_same hof]
    exact h.files

/-- Fields that do not matter are changed. -/
lemma setSlot {q : Proc} (hst : (k.proc p).state ≠ .unused)
    (hq : q.state ≠ .unused) (hok : SlotOk z q)
    (hof : q.ofile = (k.proc p).ofile) (hpt : q.pagetable = (k.proc p).pagetable)
    (htf : q.trapframe = (k.proc p).trapframe) (hsz : q.sz = (k.proc p).sz) :
    KernelInv z { k with proc := update k.proc p q } tab P H G :=
  h.set hok hof (h.mem.setSlot hst hq hpt htf hsz)

/-- A descriptor is changed. -/
lemma setFd (file : ℕ → File) (p fd : ℕ)
    (o : Option ℕ) (hst : (k.proc p).state ≠ .unused) (hz : (k.proc p).state ≠ .zombie)
    (hf : FileInv file k.pipe P (fdRefs (update k.proc p { k.proc p with
      ofile := update (k.proc p).ofile fd o }) + H')) :
    KernelInv z { k with
      file := file
      proc := update k.proc p { k.proc p with
        ofile := update (k.proc p).ofile fd o } } tab P H' G where
  mem := h.mem.setSlot hst hst rfl rfl rfl
  slot := slotOk_update (q := { k.proc p with ofile := update (k.proc p).ofile fd o })
    h.slot (.of_live hst hz) p
  files := hf

/-- Only the memory is changed. -/
lemma setMem {m : Mem} (hm : MemInv m k.proc tab' (P.val + G')) :
    KernelInv z { k with mem := m } tab' P H G' := ⟨hm, h.slot, h.files⟩

/-- Wakeups do not matter. -/
lemma quiet {k' : Kernel} (hq : Quiet k k') (hm : MemInv k'.mem k'.proc tab' (P'.val + G'))
    (hf : FileInv k'.file k'.pipe P' (fdRefs k'.proc + H')) : KernelInv z k' tab' P' H' G' :=
  ⟨hm, fun p hp => (h.slot p hp).woken (hq.proc p), hf⟩

/-- A function that works on the table of one process and may change its size. -/
lemma onTable {α : Type} {x : MemM α} {Q : α → ℕ → Prop}
    (hp : p < NPROC) (hst : (k.proc p).state ≠ .unused)
    (hx : ∀ T S, T.root = (k.proc p).pagetable → UserTable T (k.proc p).sz (k.proc p).trapframe →
      Space k.mem T S → Returns x (fun a m' => ∃ T', T'.root = T.root ∧ Space m' T' S ∧
        Frame k.mem m' S ∧ ∃ sz, Q a sz ∧ UserTable T' sz (k.proc p).trapframe) k.mem) :
    Returns x (fun a m' => ∃ sz, Q a sz ∧ Frame k.mem m' (P.val + G) ∧ ∃ tab', KernelInv z { k with
        mem := m', proc := update k.proc p { k.proc p with sz := sz } } tab' P H G) k.mem := by
  obtain ⟨T, hT, hpt, hroot, huser⟩ := h.mem.tab_isSome hp hst
  have hx' := h.mem.onTable (Q := fun a T' => T'.root = T.root ∧
    ∃ sz, Q a sz ∧ UserTable T' sz (k.proc p).trapframe) hp hT fun S hs =>
      (hx T S hroot huser hs).imp fun a m' ⟨T', hr, hs', hf, hq⟩ => ⟨T', hs', hf, hr, hq⟩
  refine hx'.imp ?_
  rintro a m' ⟨T', ⟨hr, sz, hq, hu⟩, hf, hput⟩
  refine ⟨sz, hq, hf, update tab p (some T'), ?_⟩
  have hok : SlotOk z { k.proc p with sz := sz } :=
    ⟨fun hu => absurd hu hst, fun hz => (h.slot p hp).zombie hz⟩
  refine h.set hok rfl (hput { k.proc p with sz := sz } rfl ⟨hst, hpt, ?_, hu⟩)
  rw [hr, hroot]

/-- A function that works on the table of one process and keeps its size. -/
lemma onTable_same {α : Type} {x : MemM α} {Q : α → Prop} (hp : p < NPROC)
    (hst : (k.proc p).state ≠ .unused)
    (hx : ∀ T S, T.root = (k.proc p).pagetable → UserTable T (k.proc p).sz (k.proc p).trapframe →
      Space k.mem T S → Returns x (fun a m' => ∃ T', T'.root = T.root ∧ Space m' T' S ∧
        Frame k.mem m' S ∧ UserTable T' (k.proc p).sz (k.proc p).trapframe ∧ Q a) k.mem) :
    Returns x (fun a m' => Q a ∧ Frame k.mem m' (P.val + G) ∧
      ∃ tab', KernelInv z { k with mem := m' } tab' P H G) k.mem := by
  have hx' := h.onTable (Q := fun a sz => sz = (k.proc p).sz ∧ Q a) hp hst fun T S hr hu hs =>
    (hx T S hr hu hs).imp fun _ m' ⟨T', hr', hs', hf, hu', hq⟩ =>
      ⟨T', hr', hs', hf, _, ⟨rfl, hq⟩, hu'⟩
  refine hx'.imp ?_
  rintro _ m' ⟨sz, ⟨hsz, hq⟩, hf, tab', hinv⟩
  refine ⟨hq, hf, tab', ?_⟩
  subst hsz
  simpa using hinv

end

end KernelInv

end

end Xv6
