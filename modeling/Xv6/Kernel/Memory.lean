import Xv6.Kernel.Basic
import Xv6.Vm.User

/-!
# The pages of the processes

`MemInv m proc tab R` accounts for all the pages in use: those of each process, whose page table is
`tab p`, and the remaining ones, `R`.  To work on one process is to take its pages out of the sum
(`MemInv.focus`) and to put the changed ones back (`MemInv.unfocus`).
-/

namespace Xv6

open Finset Function

variable [Layout] {m m' : Mem} {proc : ℕ → Proc} {tab : ℕ → Option PageTable} {R R' : Multiset ℕ}
  {p : ℕ}

/-- A slot without a page table is `UNUSED`; any other one has the table of a process. -/
def SlotTable (q : Proc) : Option PageTable → Prop
  | none => q.state = .unused ∧ q.pagetable = 0 ∧ q.trapframe = 0 ∧ q.sz = 0
  | some T => q.state ≠ .unused ∧ q.pagetable ≠ 0 ∧ T.root = q.pagetable ∧
      UserTable T q.sz q.trapframe

/-- The pages of a slot. -/
def slotPages (q : Proc) : Option PageTable → Multiset ℕ
  | none => 0
  | some T => T.tablePages + (T.userPages + {q.trapframe})

/-- The pages of the other slots. -/
def restPages (proc : ℕ → Proc) (tab : ℕ → Option PageTable) (p : ℕ) : Multiset ℕ :=
  ∑ i ∈ (range NPROC).erase p, slotPages (proc i) (tab i)

/-- All the pages in use. -/
abbrev usedPages (proc : ℕ → Proc) (tab : ℕ → Option PageTable) (R : Multiset ℕ) : Multiset ℕ :=
  ∑ p ∈ range NPROC, slotPages (proc p) (tab p) + R

structure MemInv (m : Mem) (proc : ℕ → Proc) (tab : ℕ → Option PageTable) (R : Multiset ℕ) :
    Prop where
  slot : ∀ p < NPROC, SlotTable (proc p) (tab p)
  repr : ∀ p < NPROC, ∀ T, tab p = some T → T.Repr m.page
  used : m.Used (∑ p ∈ range NPROC, slotPages (proc p) (tab p) + R)

omit [Layout] in
lemma sum_slotPages (hp : p < NPROC) : ∑ i ∈ range NPROC, slotPages (proc i) (tab i) =
    slotPages (proc p) (tab p) + restPages proc tab p :=
  (add_sum_erase _ _ (mem_range.mpr hp)).symm

omit [Layout] in
lemma restPages_congr {proc' : ℕ → Proc} {tab' : ℕ → Option PageTable}
    (h : ∀ i ≠ p, slotPages (proc' i) (tab' i) = slotPages (proc i) (tab i)) :
    restPages proc' tab' p = restPages proc tab p :=
  sum_congr rfl fun i hi => h i (ne_of_mem_erase hi)

omit [Layout] in
lemma le_restPages (proc : ℕ → Proc) (tab : ℕ → Option PageTable) {i : ℕ} (hi : i < NPROC) (hip : i ≠ p) :
    slotPages (proc i) (tab i) ≤ restPages proc tab p :=
  single_le_sum (f := fun i => slotPages (proc i) (tab i)) (fun _ _ => Multiset.zero_le _)
    (mem_erase.mpr ⟨hip, mem_range.mpr hi⟩)

namespace MemInv

/-- Only what `SlotTable` says about a slot matters. -/
lemma congr {proc' : ℕ → Proc} (h : MemInv m proc tab R)
    (hslot : ∀ p < NPROC, SlotTable (proc' p) (tab p))
    (htf : ∀ p < NPROC, (proc' p).trapframe = (proc p).trapframe) : MemInv m proc' tab R where
  slot := hslot
  repr := h.repr
  used := by
    have hsum : ∑ p ∈ range NPROC, slotPages (proc' p) (tab p) =
        ∑ p ∈ range NPROC, slotPages (proc p) (tab p) := sum_congr rfl fun p hp => by
      cases htab : tab p with
      | none => rfl
      | some T => rw [slotPages, slotPages, htf p (mem_range.mp hp)]
    rw [hsum]
    exact h.used

lemma tab_isSome (h : MemInv m proc tab R) (hp : p < NPROC) (hst : (proc p).state ≠ .unused) :
    ∃ T, tab p = some T ∧ (proc p).pagetable ≠ 0 ∧ T.root = (proc p).pagetable ∧
      UserTable T (proc p).sz (proc p).trapframe := by
  have hslot := h.slot p hp
  cases htab : tab p with
  | none =>
    rw [htab] at hslot
    exact absurd hslot.1 hst
  | some T =>
    rw [htab] at hslot
    exact ⟨T, rfl, hslot.2⟩

lemma tab_eq_none (h : MemInv m proc tab R) (hp : p < NPROC) (hst : (proc p).state = .unused) :
    tab p = none := by
  have hslot := h.slot p hp
  cases htab : tab p with
  | none => rfl
  | some T =>
    rw [htab] at hslot
    exact absurd hst hslot.1

variable {T : PageTable} {q : Proc}

/-- The process `p` on its own: its table with its user pages, and all the rest. -/
lemma focus (h : MemInv m proc tab R) (hp : p < NPROC) (hT : tab p = some T) :
    Space m T ((proc p).trapframe ::ₘ (restPages proc tab p + R)) where
  repr := h.repr p hp T hT
  used := by
    have hused := h.used
    rw [sum_slotPages hp, hT, slotPages] at hused
    rw [← Multiset.singleton_add]
    convert hused using 1
    abel

/-- The other tables are where they were. -/
lemma repr_frame (h : MemInv m proc tab R) (hf : Frame m m' (restPages proc tab p)) {i : ℕ}
    (hi : i < NPROC) (hip : i ≠ p) (hT : tab i = some T) : T.Repr m'.page := by
  refine (h.repr i hi T hT).frame hf ?_
  have hle := le_restPages proc tab hi hip
  rw [hT, slotPages] at hle
  exact (Multiset.le_add_right _ _).trans hle

omit [Layout] in
lemma restPages_update (q : Proc) (o : Option PageTable) :
    restPages (update proc p q) (update tab p o) p = restPages proc tab p :=
  restPages_congr fun i hi => by rw [update_of_ne hi, update_of_ne hi]

/-- Put the slot `p` back, with or without a table. -/
lemma put (h : MemInv m proc tab R) (hp : p < NPROC) {o : Option PageTable}
    (hq : SlotTable q o) (hrepr : ∀ T, o = some T → T.Repr m'.page)
    (hused : m'.Used (slotPages q o + restPages proc tab p + R'))
    (hf : Frame m m' (restPages proc tab p)) :
    MemInv m' (update proc p q) (update tab p o) R' where
  slot i hi := by
    by_cases hip : i = p
    · rw [hip, update_self, update_self]
      exact hq
    · rw [update_of_ne hip, update_of_ne hip]
      exact h.slot i hi
  repr i hi T hT := by
    by_cases hip : i = p
    · rw [hip, update_self] at hT
      exact hrepr T hT
    · rw [update_of_ne hip] at hT
      exact h.repr_frame hf hi hip hT
  used := by
    rw [sum_slotPages hp, restPages_update, update_self, update_self]
    exact hused

/-- Put a changed process back. -/
lemma unfocus (h : MemInv m proc tab R) (hp : p < NPROC)
    (hs : Space m' T (q.trapframe ::ₘ (restPages proc tab p + R')))
    (hf : Frame m m' (restPages proc tab p)) (hq : SlotTable q (some T)) :
    MemInv m' (update proc p q) (update tab p (some T)) R' := by
  refine h.put hp hq (fun T' hT' => Option.some.inj hT' ▸ hs.repr) ?_ hf
  have hused := hs.used
  rw [← Multiset.singleton_add] at hused
  rw [slotPages]
  convert hused using 1
  abel

/-- The slot `p` is empty now. -/
lemma unfocus_none (h : MemInv m proc tab R) (hp : p < NPROC)
    (hu : m'.Used (restPages proc tab p + R')) (hf : Frame m m' (restPages proc tab p))
    (hq : SlotTable q none) : MemInv m' (update proc p q) (update tab p none) R' :=
  h.put hp hq (fun T hT => absurd hT (by simp)) (by rwa [slotPages, zero_add]) hf

end MemInv
end Xv6
