import Xv6.Fs.Inv
import Xv6.Kernel.Reach
import Xv6.Sys.Basic
import Xv6.Vm.Access

/-!
# `fork`

What a process can see of itself are the bytes and permissions of its memory, its registers, its
open files and its current directory.  A child that `kfork` makes has all of these as the parent
had them, except for `a0`, in pages of its own (`fork_copies`).
-/

namespace Xv6

open Function Multiset

namespace Kernel

/-! ## What a process sees -/

/-- The entry for the page `v` of the process `p`. -/
def pteAt (k : Kernel) (p v : ℕ) : Option Pte := k.mem.leafAt (k.proc p).pagetable v

/-- The byte at a user address; a page that is not mapped yet reads as zero. -/
def byteAt (k : Kernel) (p va : ℕ) : Byte :=
  match k.pteAt p (pageOf va) with
  | none => 0
  | some e => k.mem.page (pte2pa e) (va % PGSIZE)

/-- The permissions at a user address, if its page is mapped. -/
def permAt (k : Kernel) (p va : ℕ) : Option Pte := (k.pteAt p (pageOf va)).map pteFlags

/-- The `i`-th word of the trapframe, where the registers are saved. -/
def savedReg (k : Kernel) (p i : ℕ) : BitVec 64 := (k.mem.page (k.proc p).trapframe).get64 (8 * i)

/-- A store of a process to its memory. -/
structure Store where
  proc : ℕ
  va : BitVec 64
  byte : Byte

variable [Layout]

def store (x : Store) : KernelM Bool := do
  let q := (← get).proc x.proc
  onMem (userStore q.pagetable q.sz x.va.toNat x.byte)

def storeStep (k : Kernel) (x : Store) : Option Kernel :=
  match store x k with
  | .ok (_, k') => some k'
  | .error _ => none

/-- The process `q` sees the same in both states. -/
def SameSight (k k' : Kernel) (q : ℕ) : Prop :=
  ∀ va < TRAPFRAME, k'.byteAt q va = k.byteAt q va ∧ k'.permAt q va = k.permAt q va

/-- Two processes with no page in common, and whatever the two store later, one at a time, a store of
the one is not seen by the other. -/
structure Independent (k : Kernel) (p q : ℕ) : Prop where
  pages : ∀ v w e e', v < UPAGES → w < UPAGES → k.pteAt p v = some e → k.pteAt q w = some e' →
    pte2pa e ≠ pte2pa e'
  stores : ∀ l : List Store, (∀ x ∈ l, x.proc = p ∨ x.proc = q) → ∀ k', run storeStep k l = some k' →
    ∀ x r k'', store x k' = .ok (r, k'') →
      (x.proc = p → SameSight k' k'' q) ∧ (x.proc = q → SameSight k' k'' p)

variable {z : Prop} {k k' : Kernel} {tab : ℕ → Option PageTable} {P : Finset ℕ}
  {G : Multiset ℕ} {p q : ℕ} {T : PageTable}

section Sight

variable (h : KernelInv z k tab P 0 G) (hp : p < NPROC) (hT : tab p = some T)

include h hp hT

lemma pteAt_eq (v : ℕ) : k.pteAt p v = T.leaf v := (h.table_repr hp hT).2.2.2 v

lemma byteAt_eq (va : ℕ) : k.byteAt p va = T.byte k.mem.page va := by
  rw [byteAt, pteAt_eq h hp hT, PageTable.byte, PageTable.view]
  cases T.leaf (pageOf va) <;> rfl

lemma permAt_eq (va : ℕ) : k.permAt p va = (T.leaf (pageOf va)).map pteFlags := by
  rw [permAt, pteAt_eq h hp hT]

end Sight

omit [Layout] in
lemma pageOf_lt_UPAGES {va : ℕ} (h : va < TRAPFRAME) : pageOf va < UPAGES :=
  (Nat.div_lt_iff_lt_mul (by decide)).mpr (by rwa [UPAGES_mul])

/-- A process whose table is the same and whose pages have not been stored to sees the same. -/
lemma sameSight {tab' : ℕ → Option PageTable} {P' : Finset ℕ} {G' : Multiset ℕ}
    (h : KernelInv z k tab P 0 G) (h' : KernelInv z k' tab' P' 0 G') (hq : q < NPROC)
    (hT : tab q = some T) (hT' : tab' q = some T) (hf : Frame k.mem k'.mem T.userPages) :
    SameSight k k' q := by
  intro va hva
  rw [byteAt_eq h hq hT, byteAt_eq h' hq hT', permAt_eq h hq hT, permAt_eq h' hq hT',
    PageTable.byte, PageTable.byte, PageTable.view_frame hf (pageOf_lt_UPAGES hva)]
  exact ⟨rfl, rfl⟩

/-! ## Stores -/

/-- A store goes to the pages of its process. -/
lemma store_spec {x : Store} (h : KernelInv z k tab P 0 G) (hp : x.proc < NPROC)
    (hst : (k.proc x.proc).state ≠ .unused) :
    Returns (store x) (fun _ k' => ∃ T', KernelInv z k' (update tab x.proc (some T')) P 0 G ∧
      k'.proc = k.proc ∧ Frame k.mem k'.mem (restPages k.proc tab x.proc)) k := by
  obtain ⟨T, hT, hpt, hroot, huser⟩ := h.mem.tab_isSome hp hst
  simp only [Returns, store, wp_bind, wp_get, wp_onMem, ← hroot]
  refine ((h.mem.focus hp hT).userStore huser x.va.isLt x.byte).imp ?_
  rintro _ m' ⟨T', hr', hs', hf', hft, _⟩
  refine ⟨T', ?_, trivial, hf'.mono ?_⟩
  · have hm := h.mem.unfocus hp hs' (hf'.mono ?_) ⟨hst, hpt, hr'.trans hroot, huser.faulted hft⟩
    · rw [update_eq_self] at hm
      exact h.setMem hm
    · exact (Multiset.le_add_right _ _).trans (le_cons_self _ _)
  · exact (Multiset.le_add_right _ _).trans (le_cons_self _ _)

omit [Layout] in
lemma userPages_le_restPages (hq : q < NPROC) (hqp : q ≠ p) (hT : tab q = some T) :
    T.userPages ≤ restPages k.proc tab p := by
  have hle := le_restPages k.proc tab hq hqp
  rw [hT, slotPages] at hle
  exact ((Multiset.le_add_right _ _).trans (Multiset.le_add_left _ _)).trans hle

/-- Nobody else sees a store. -/
lemma store_sameSight {x : Store} (h : KernelInv z k tab P 0 G) (hp : x.proc < NPROC) (hq : q < NPROC)
    (hqp : q ≠ x.proc) (hstp : (k.proc x.proc).state ≠ .unused) (hst : (k.proc q).state ≠ .unused) :
    Returns (store x) (fun _ k' => SameSight k k' q) k := by
  obtain ⟨T, hT, -⟩ := h.mem.tab_isSome hq hst
  refine (store_spec h hp hstp).imp ?_
  rintro _ k' ⟨T', h', _, hf⟩
  refine sameSight h h' hq hT ((update_of_ne hqp ..).trans hT) (hf.mono ?_)
  exact userPages_le_restPages hq hqp hT

/-- Two processes are independent of each other in every state that meets the invariant. -/
lemma independent (h : Reached z G k) (hp : p < NPROC) (hq : q < NPROC) (hpq : p ≠ q)
    (hstp : (k.proc p).state ≠ .unused) (hstq : (k.proc q).state ≠ .unused) : Independent k p q where
  pages := by
    obtain ⟨tab, P, h⟩ := h
    obtain ⟨T, hT, -⟩ := h.mem.tab_isSome hp hstp
    obtain ⟨T', hT', -⟩ := h.mem.tab_isSome hq hstq
    intro v w e e' hv hw he he' heq
    rw [pteAt_eq h hp hT] at he
    rw [pteAt_eq h hq hT'] at he'
    have hnd := (nodup_add.mp (h.mem.focus hp hT).used.nodup).2.1
    refine disjoint_left.mp (nodup_add.mp hnd).2.2 (Space.mem_userPages hv he) ?_
    rw [heq]
    have hle := userPages_le_restPages (k := k) hq hpq.symm hT'
    exact mem_cons_of_mem (mem_add.mpr (Or.inl
      (mem_of_le hle (Space.mem_userPages hw he'))))
  stores := by
    intro l hl k₁ hrun x r k₂ hx
    -- The invariant holds all along, and the process table does not change.
    have hinv : Reached z G k₁ ∧ k₁.proc = k.proc := by
      induction l generalizing k with
      | nil =>
        obtain rfl := Option.some.inj hrun
        exact ⟨h, rfl⟩
      | cons y l ih =>
        obtain ⟨k₀, hy, hrun'⟩ := run_cons_eq_some.mp hrun
        obtain ⟨tab, P, hk⟩ := h
        have hlt : y.proc < NPROC ∧ (k.proc y.proc).state ≠ .unused := by
          rcases hl y (by simp) with hyp | hyq
          · exact hyp ▸ ⟨hp, hstp⟩
          · exact hyq ▸ ⟨hq, hstq⟩
        have hstep : ∃ b, store y k = .ok (b, k₀) := by
          unfold storeStep at hy
          split at hy
          · next b k' heq =>
            obtain rfl := Option.some.inj hy
            exact ⟨b, heq⟩
          · cases hy
        obtain ⟨b, hb⟩ := hstep
        obtain ⟨T', h₀, hproc, -⟩ := (store_spec hk hlt.1 hlt.2).of_eq_ok hb
        obtain ⟨hinv, hsame⟩ := ih ⟨_, P, h₀⟩ (by rwa [hproc]) (by rwa [hproc])
          (fun y' hy' => hl y' (List.mem_cons_of_mem _ hy')) hrun'
        exact ⟨hinv, hsame.trans hproc⟩
    obtain ⟨⟨tab, P, hk₁⟩, hproc⟩ := hinv
    rw [← hproc] at hstp hstq
    constructor
    · rintro rfl
      exact (store_sameSight hk₁ hp hq hpq.symm hstp hstq).of_eq_ok hx
    · rintro rfl
      exact (store_sameSight hk₁ hq hp hpq hstq hstp).of_eq_ok hx

end Kernel

namespace Sys

open Kernel

section

variable [Layout]

/-- The child `np` of the process `p`, as `kfork` makes it. -/
structure Child (s : Sys) (p np : ℕ) (s' : Sys) : Prop where
  lt : np < NPROC
  new : (s.kernel.proc np).state = .unused
  state : (s'.kernel.proc np).state = .runnable
  parent : (s'.kernel.proc np).parent = some p
  size : (s'.kernel.proc np).sz = (s.kernel.proc p).sz
  byte : ∀ va < (s.kernel.proc p).sz, s'.kernel.byteAt np va = s.kernel.byteAt p va
  perm : ∀ va < (s.kernel.proc p).sz, s'.kernel.permAt np va = s.kernel.permAt p va
  reg : ∀ i < 36, i ≠ 14 → s'.kernel.savedReg np i = s.kernel.savedReg p i
  a0 : s'.kernel.savedReg np 14 = 0
  ofile : ∀ fd < NOFILE, (s'.kernel.proc np).ofile fd = (s.kernel.proc p).ofile fd
  ref : ∀ f, s'.kernel.file f = { s.kernel.file f with
    ref := (s.kernel.file f).ref + fdCount (s.kernel.proc p).ofile 0 NOFILE f }
  cwd : ∃ ip, (s.kernel.proc p).cwd = some ip ∧ (s'.kernel.proc np).cwd = some ip ∧
    s'.fs = s.fs.onInode ip fun x => { x with ref := x.ref + 1 }
  others : ∀ i ≠ np, s'.kernel.proc i = s.kernel.proc i
  independent : Independent s'.kernel p np

/-- A `kfork` that fails leaves every process as it was, with its files and its memory, and the same
pages are in use as before. -/
structure Restored (s s' : Sys) : Prop where
  proc : ∀ i, (s.kernel.proc i).state ≠ .unused → s'.kernel.proc i = s.kernel.proc i
  unused : ∀ i, (s'.kernel.proc i).state = .unused ↔ (s.kernel.proc i).state = .unused
  sight : ∀ i < NPROC, (s.kernel.proc i).state ≠ .unused → SameSight s.kernel s'.kernel i
  reg : ∀ i < NPROC, (s.kernel.proc i).state ≠ .unused → ∀ j, s'.kernel.savedReg i j =
    s.kernel.savedReg i j
  file : s'.kernel.file = s.kernel.file
  fs : s'.fs = s.fs
  free : ∃ S, s.kernel.mem.Used S ∧ s'.kernel.mem.Used S

variable {z : Prop} {s : Sys} {k : Kernel} {tab : ℕ → Option PageTable} {P : Finset ℕ}
  {G : Multiset ℕ} {p np : ℕ} {T : PageTable}

variable {R : Multiset ℕ} {k' : Kernel}

omit [Layout] in
lemma slotPages_le_usedPages (hp : p < NPROC) :
    slotPages (k.proc p) (tab p) ≤ usedPages k.proc tab R := by
  rw [usedPages, sum_slotPages hp, add_assoc]
  exact Multiset.le_add_right _ _

omit [Layout] in
lemma userPages_le_usedPages (hp : p < NPROC) (hT : tab p = some T) :
    T.userPages ≤ usedPages k.proc tab R := by
  refine le_trans ?_ (slotPages_le_usedPages hp)
  rw [hT, slotPages]
  exact (Multiset.le_add_right _ _).trans (Multiset.le_add_left _ _)

omit [Layout] in
lemma trapframe_mem_usedPages (hp : p < NPROC) (hT : tab p = some T) :
    (k.proc p).trapframe ∈ usedPages k.proc tab R := by
  refine mem_of_le (slotPages_le_usedPages hp) ?_
  rw [hT, slotPages]
  simp

lemma restored (h : KernelInv z s.kernel tab P 0 G)
    (h' : Unforked z s.kernel tab P 0 G k') : Restored s { s with kernel := k' } where
  proc := h'.same
  unused := h'.unused
  sight i hi hst := by
    obtain ⟨T, hT, -⟩ := h.mem.tab_isSome hi hst
    exact sameSight h h'.inv hi hT hT (h'.frame.mono (userPages_le_usedPages hi hT))
  reg i hi hst j := by
    obtain ⟨T, hT, -⟩ := h.mem.tab_isSome hi hst
    dsimp only [savedReg]
    rw [h'.same i hst, h'.frame.on _ (trapframe_mem_usedPages hi hT)]
  file := h'.file
  fs := rfl
  free := by
    refine ⟨_, h.mem.used, ?_⟩
    have hused := h'.inv.mem.used
    have hsum : ∑ i ∈ Finset.range NPROC, slotPages (k'.proc i) (tab i) =
        ∑ i ∈ Finset.range NPROC, slotPages (s.kernel.proc i) (tab i) := by
      refine Finset.sum_congr rfl fun i hi => ?_
      by_cases hst : (s.kernel.proc i).state = .unused
      · rw [h.mem.tab_eq_none (Finset.mem_range.mp hi) hst, slotPages, slotPages]
      · rw [h'.same i hst]
    rwa [hsum] at hused

/-- The permissions of a page that `uvmcopy` has copied. -/
lemma flags_copied {T₀ : PageTable} {g : ℕ → Option Pte} {v n sz tf : ℕ}
    (hu₀ : UserTable T₀ sz tf) (hc : Copied T₀.leaf g T.leaf n) (hv : v < n) (hlt : v < UPAGES)
    (hg : g v = none) : (T.leaf v).map pteFlags = (T₀.leaf v).map pteFlags := by
  cases he : T₀.leaf v with
  | none => rw [hc.none v hv he, hg]
  | some e =>
    obtain ⟨pa, -, hl⟩ := hc.some v hv e he
    obtain ⟨-, pa', perm, -, hperm, -, rfl⟩ := hu₀.user v e hlt he
    rw [hl, Option.map_some, Option.map_some, pteFlags_leafEntry (isFlags_pteFlags _),
      pteFlags_leafEntry hperm, BitVec.or_assoc, BitVec.or_self]

lemma child {ip : ℕ} (h : KernelInv z s.kernel tab P 0 G) (hp : p < NPROC)
    (hst : (s.kernel.proc p).state = .running) (hcwd : (s.kernel.proc p).cwd = some ip)
    (h' : ForkedTo z s.kernel tab P 0 G p np T k') :
    Child s p np
      { kernel := { k' with
          proc := update k'.proc np (Proc.forked (k'.proc np) (some ip) p) }
        fs := s.fs.onInode ip fun x => { x with ref := x.ref + 1 } } := by
  obtain ⟨T₀, g, hT₀, hg, hc, hsame⟩ := h'.copied
  have hne : p ≠ np := by
    rintro rfl
    exact absurd (hst.symm.trans h'.new) (by decide)
  obtain ⟨T₁, hT₁, -, -, huser₀⟩ := h.mem.tab_isSome hp (by simp [hst])
  obtain rfl : T₀ = T₁ := Option.some.inj (hT₀.symm.trans hT₁)
  have hinv := h'.finish (some ip)
  have hT : update tab np (some T) np = some T := update_self ..
  -- An address below the size is in a page that has been copied.
  have hpage : ∀ va < (s.kernel.proc p).sz, pageOf va < pagesOf (s.kernel.proc p).sz := by
    intro va hva
    unfold pageOf pagesOf PGSIZE
    omega
  have hpages : pagesOf (s.kernel.proc p).sz ≤ UPAGES := pagesOf_le huser₀.size_le
  obtain ⟨b, hb⟩ := h'.regs
  refine ⟨h'.lt, h'.new, ?_, ?_, ?_, fun va hva => ?_, fun va hva => ?_, fun i hi hi14 => ?_, ?_,
    fun fd hfd => ?_, h'.file, ⟨ip, hcwd, ?_, rfl⟩, fun i hi => ?_, ?_⟩
  · simp [Proc.forked]
  · simp [Proc.forked]
  · dsimp only
    rw [update_self, Proc.forked, h'.child]
  · have hv := hpage va hva
    rw [byteAt_eq hinv h'.lt hT, byteAt_eq h hp hT₀, PageTable.byte, PageTable.byte]
    dsimp only
    rw [hsame _ hv _ (Nat.mod_lt _ (by decide)),
      PageTable.view_frame (h'.frame.mono (userPages_le_usedPages hp hT₀)) (hv.trans_le hpages)]
  · have hv := hpage va hva
    rw [permAt_eq hinv h'.lt hT, permAt_eq h hp hT₀]
    exact flags_copied huser₀ hc hv (hv.trans_le hpages) (hg _ (hv.trans_le hpages))
  · dsimp only [savedReg]
    rw [update_self]
    dsimp only [Proc.forked]
    rw [hb, Bytes.get64_put64_of_disjoint (by omega)]
    exact Bytes.get64_congr fun j hj hj' => by
      rw [Bytes.blit_of_mem (by omega), Nat.zero_add, Nat.sub_zero]
  · dsimp only [savedReg]
    rw [update_self]
    dsimp only [Proc.forked]
    rw [hb, Bytes.get64_put64]
  · dsimp only
    rw [update_self]
    exact h'.ofile fd hfd
  · simp [Proc.forked]
  · exact (update_of_ne hi ..).trans (h'.other i hi)
  · refine independent ⟨_, P, hinv⟩ hp h'.lt hne ?_ ?_
    · dsimp only
      rw [update_of_ne hne, h'.other p hne]
      simp [hst]
    · simp [Proc.forked]

/-- **`fork` copies exactly and independently.**  Let a process `p` call `kfork` in any state that
meets the invariant, with any of the calls of `kalloc` failing.
* Either it returns the next pid, and a slot that was `UNUSED` is a child of `p`: at every address
  below the size the byte and the permissions are those of the parent at the time of the call, and so
  are the saved registers, but for `a0`, which is 0.  The open files and the current directory are
  those of the parent, and their counts have grown by the new references.  The two share no page, and
  no later store by one of them is seen by the other.
* Or it returns -1, and no process, file or inode has changed, in its memory or elsewhere, and the same
  pages are in use as before.  Then no slot was `UNUSED`, or a call of `kalloc` has found no memory.
It returns unless the process has no current directory. -/
theorem fork_copies (h : Reached z G s.kernel) (hp : p < NPROC)
    (hst : (s.kernel.proc p).state = .running) :
    (∀ r s', kfork p s = .ok (r, s') →
      (r = s.kernel.nextpid ∧ ∃ np, Child s p np s') ∨
      (r = -1 ∧ Restored s s' ∧ (NoSlot s.kernel ∨ s'.kernel.mem.denied = true))) ∧
    ((s.kernel.proc p).cwd ≠ none → ∃ r s', kfork p s = .ok (r, s')) := by
  obtain ⟨tab, P, hinv⟩ := h
  have hspec : wp (kfork p) (fun r s' =>
      (r = s.kernel.nextpid ∧ ∃ np, Child s p np s') ∨
      (r = -1 ∧ Restored s s' ∧ (NoSlot s.kernel ∨ s'.kernel.mem.denied = true)))
      (fun _ => (s.kernel.proc p).cwd = none) s := by
    simp only [kfork, wp_bind, wp_onKernel]
    have hfork : Returns (forkThen p (return none) fun np _ => return some np)
        (fun r k' => (r = none ∧ Unforked z s.kernel tab P 0 G k') ∨
          ∃ np T, r = some np ∧ ForkedTo z s.kernel tab P 0 G p np T k') s.kernel :=
      forkThen_spec hinv hp hst (fun k' hk' => Or.inl ⟨rfl, hk'⟩)
        fun np T k₁ k' hk' _ _ => Or.inr ⟨np, T, rfl, hk'⟩
    refine ((hfork.and forkThen_denied).wp).imp ?_
    rintro r k' ⟨⟨rfl, hk'⟩ | ⟨np, T, rfl, hk'⟩, hwhy⟩
    · exact Or.inr ⟨rfl, restored hinv hk', hwhy rfl⟩
    have hne : p ≠ np := by
      rintro rfl
      exact absurd (hst.symm.trans hk'.new) (by decide)
    simp only [wp_bind, wp_get, hk'.other p hne]
    cases hcwd : (s.kernel.proc p).cwd with
    | none => exact rfl
    | some ip =>
      simp only [idup, setInode, wp_bind, wp_onFs, wp_modify, wp_pure, wp_onKernel, wp_get,
        wp_setProc, update_self, update_idem]
      refine Or.inl ⟨?_, np, child hinv hp hst hcwd hk'⟩
      rw [hk'.child]
      rfl
  refine ⟨fun r s' hr => hspec.of_eq_ok hr, fun hcwd => ?_⟩
  cases hx : kfork p s with
  | ok a => exact ⟨a.1, a.2, rfl⟩
  | error e => exact absurd (hspec.of_eq_error hx) hcwd

end

local instance layoutFork : Layout := smallLayout

/-- The first process has two pages of memory, five bytes of which it has written, and an open file when
it forks: the child is process 2. -/
theorem fork_copies_memory : ∃ k s', run Kernel.step (Kernel.boot smallMem)
      [.userinit 0, .schedule 0, .sbrk 0 6000 1, .copyout 0 4094 (fun _ => 7) 5,
        .open 0 (some ⟨0, none⟩) 2] = some k ∧
    (k.proc 0).sz = 6000 ∧ k.byteAt 0 4097 = 7 ∧ (k.proc 0).ofile 0 = some 0 ∧
    kfork 0 { kernel := k, fs := rootFs } = .ok (2, s') ∧
    ∃ np, Child { kernel := k, fs := rootFs } 0 np s' := by
  have hrun : (run Kernel.step (Kernel.boot smallMem)
      [.userinit 0, .schedule 0, .sbrk 0 6000 1, .copyout 0 4094 (fun _ => 7) 5,
        .open 0 (some ⟨0, none⟩) 2]).map
      (fun k => ((k.proc 0).state, (k.proc 0).sz, k.byteAt 0 4097, (k.proc 0).ofile 0,
        (kfork 0 { kernel := k, fs := rootFs }).toOption.map Prod.fst)) =
      some (.running, 6000, 7, some 0, some 2) := by
    decide +kernel
  obtain ⟨k, hk, h⟩ := Option.map_eq_some_iff.mp hrun
  simp only [Prod.mk.injEq] at h
  obtain ⟨hst, hsz, hbyte, hfile, hfork⟩ := h
  cases hx : kfork 0 { kernel := k, fs := rootFs } with
  | error e => simp [hx, Except.toOption] at hfork
  | ok a =>
    obtain ⟨r, s'⟩ := a
    obtain rfl : r = 2 := by simpa [hx, Except.toOption] using hfork
    have hall := (fork_copies (s := { kernel := k, fs := rootFs })
      (Kernel.reached_run smallMem_used hk) (show 0 < NPROC by decide) hst).1 2 s' hx
    rcases hall with ⟨-, hchild⟩ | ⟨hr, -⟩
    · exact ⟨k, s', hk, hsz, hbyte, hfile, hx, hchild⟩
    · exact absurd hr (by decide)

end Sys
end Xv6
