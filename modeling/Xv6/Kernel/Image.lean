import Xv6.Kernel.Exec
import Xv6.Vm.User

/-!
# Building the memory of a new program

The part of `kexec` that works on the new page table only.  Until the stack is made every page below
the size is mapped for the user, which bounds the size by the physical memory and gives `loadseg` the
pages it expects.
-/

namespace Xv6

open Finset

variable [Layout] {m : Mem} {T : PageTable} {S : Multiset ℕ} {sz tf : ℕ}

/-- A user table without holes. -/
structure Loaded (T : PageTable) (sz tf : ℕ) : Prop extends UserTable T sz tf where
  full : ∀ u < pagesOf sz, ∃ e, T.leaf u = some e ∧ Pte.has e PTE_U = true

omit [Layout] in
lemma pageOf_lt_pagesOf {va : ℕ} (h : va < sz) : pageOf va < pagesOf sz := by
  unfold pageOf pagesOf
  unfold PGSIZE
  omega

/-- The leaves that `uvmalloc` adds are for the user. -/
lemma Loaded.fresh {T' : PageTable} {sz' : ℕ} {perm : Pte} (h : Loaded T sz tf) (hle : sz ≤ sz')
    (hmax : sz' ≤ TRAPFRAME) (hperm : IsFlags perm) (hR : Pte.has perm PTE_R = true)
    (hU : Pte.has (perm ||| PTE_V) PTE_U = true)
    (hf : Fresh T.leaf T'.leaf (pagesOf sz) (pagesOf sz') perm) : Loaded T' sz' tf where
  toUserTable := h.toUserTable.fresh hle hmax hperm hR hf
  full u hu := by
    by_cases hin : pagesOf sz ≤ u
    · obtain ⟨pa, -, hl⟩ := hf.inside u hin hu
      exact ⟨_, hl, by rw [leafEntry_has (by decide)]; exact hU⟩
    · rw [hf.outside u (by omega)]
      exact h.full u (by omega)

lemma Loaded.congr {T' : PageTable} (h : Loaded T sz tf) (hl : T'.leaf = T.leaf) :
    Loaded T' sz tf where
  toUserTable := h.toUserTable.congr hl
  full u hu := by
    rw [hl]
    exact h.full u hu

lemma Loaded.ne_none (h : Loaded T sz tf) {u : ℕ} (hu : u < pagesOf sz) : T.leaf u ≠ none := by
  obtain ⟨e, he, -⟩ := h.full u hu
  simp [he]

namespace Space

lemma loadsegLoop {va fsz : ℕ} {ip : ExecFile} {offset : ℕ} (hT : Loaded T sz tf)
    (hva : va + fsz ≤ sz) (n : ℕ) {i : ℕ} {m : Mem} (h : Space m T S)
    (hn : ∀ j < n, i + j * PGSIZE < fsz) :
    Returns (Xv6.loadsegLoop T.root va ip offset fsz n i)
      (fun _ m' => Space m' T S ∧ Frame m m' S) m := by
  induction n generalizing i m with
  | zero => exact ⟨h, Frame.refl _ _⟩
  | succ n ih =>
    have hi : va + i < sz := by
      have := hn 0 (Nat.succ_pos n)
      omega
    have hpage := pageOf_lt_pagesOf hi
    have hbound := pagesOf_le hT.size_le
    obtain ⟨e, he, hU⟩ := hT.full _ hpage
    have hlt : pageOf (va + i) < UPAGES := by omega
    have hmax : ¬MAXVA ≤ va + i := by
      have := hT.size_le
      unfold TRAPFRAME TRAMPOLINE at this
      omega
    simp only [Returns, Xv6.loadsegLoop, wp_bind]
    refine (h.walkaddr (va + i)).imp ?_
    rintro pa m₁ ⟨hpa, hm₁⟩
    have hpa' : pa = pte2pa e := by
      rw [hpa, PageTable.userAddr, if_neg hmax, he]
      exact if_pos hU
    have hphys : IsPhys pa := hpa' ▸ h.isPhys_leaf hlt he
    rw [hm₁, wp_ite_neg hphys.pos.ne']
    simp only [wp_bind, wp_modify]
    rw [hpa']
    obtain ⟨hs, hf⟩ := h.write_user hlt he ((m.page (pte2pa e)).blit 0
      (ip.bytes ((offset + i) % 2 ^ 32)) 0
      (ip.readi ((offset + i) % 2 ^ 32) (if fsz - i < PGSIZE then fsz - i else PGSIZE)))
    refine wp_ite.mpr ⟨fun _ => ⟨hs, hf⟩, fun _ => ?_⟩
    refine (ih hs fun j hj => ?_).imp fun _ m₂ h₂ => ⟨h₂.1, hf.trans h₂.2⟩
    have := hn (j + 1) (by omega)
    rw [Nat.succ_mul] at this
    omega

lemma loadseg {va : ℕ} {ip : ExecFile} {offset fsz : BitVec 32} (h : Space m T S)
    (hT : Loaded T sz tf) (hva : va + fsz.toNat ≤ sz) :
    Returns (Xv6.loadseg T.root va ip offset fsz) (fun _ m' => Space m' T S ∧ Frame m m' S) m := by
  refine loadsegLoop hT hva _ h fun j hj => ?_
  rw [Nat.lt_div_iff_mul_lt (by decide)] at hj
  omega

omit [Layout] in
lemma isFlags_flags2perm (f : BitVec 32) : IsFlags (PTE_R ||| PTE_U ||| flags2perm f) ∧
    Pte.has (PTE_R ||| PTE_U ||| flags2perm f) PTE_R = true ∧
    Pte.has (PTE_R ||| PTE_U ||| flags2perm f ||| PTE_V) PTE_U = true := by
  unfold flags2perm
  split <;> split <;> decide

/-- Loading the segments keeps a table without holes, whatever the file says. -/
lemma loadProgram {ip : ExecFile} (n : ℕ) {off : BitVec 32} {sz : ℕ} {m : Mem} {T : PageTable}
    (h : Space m T S) (hT : Loaded T sz tf) :
    Returns (Xv6.loadProgram T.root ip n off sz) (fun r m' => ∃ T' : PageTable, T'.root = T.root ∧
      Space m' T' S ∧ Frame m m' S ∧ Loaded T' r.1 tf) m := by
  induction n generalizing off sz m T with
  | zero => exact ⟨T, rfl, h, Frame.refl _ _, hT⟩
  | succ n ih =>
    have hbad : ∃ T' : PageTable, T'.root = T.root ∧ Space m T' S ∧ Frame m m S ∧ Loaded T' sz tf :=
      ⟨T, rfl, h, Frame.refl _ _, hT⟩
    simp only [Returns, Xv6.loadProgram]
    generalize ip.bytes off.toNat = ph
    rw [wp_ite]
    refine ⟨fun _ => hbad, fun _ => ?_⟩
    rw [wp_ite]
    refine ⟨fun _ => ih h hT, fun _ => ?_⟩
    rw [wp_ite]
    refine ⟨fun _ => hbad, fun hmem => ?_⟩
    rw [wp_ite]
    refine ⟨fun _ => hbad, fun _ => ?_⟩
    rw [wp_ite]
    refine ⟨fun _ => hbad, fun _ => ?_⟩
    rw [wp_bind]
    obtain ⟨hperm, hR, hU⟩ := isFlags_flags2perm (Proghdr.flags ph)
    have halloc := h.uvmalloc (Proghdr.vaddr ph + Proghdr.memsz ph) hperm hT.size_le
      (fun u h₁ h₂ => hT.toUserTable.eq_none h₁ h₂) (Or.inr fun u hu => hT.ne_none hu)
    refine halloc.imp fun sz1 m₁ hpost => ?_
    obtain ⟨T₁, hr₁, hs₁, hf₁, -, hres⟩ := hpost
    have hf₁' := hf₁.mono (Multiset.le_add_left S _)
    -- In each case the table is full up to a size that covers the segment, unless there was no room.
    have hT₁ : Loaded T₁ sz tf ∧ sz1 = 0 ∨
        Loaded T₁ sz1 tf ∧ Proghdr.vaddr ph + Proghdr.memsz ph ≤ sz1 ∧ sz1 ≠ 0 := by
      rcases hres with ⟨hlt, rfl, hl⟩ | ⟨-, rfl, hl⟩ | ⟨hle, rfl, hmax, hfr⟩
      · exact Or.inr ⟨hT.congr hl, by omega, by omega⟩
      · exact Or.inl ⟨hT.congr hl, rfl⟩
      · have hnew := hT.fresh hle hmax hperm hR hU hfr
        by_cases h0 : Proghdr.vaddr ph + Proghdr.memsz ph = 0
        · have hz : sz = Proghdr.vaddr ph + Proghdr.memsz ph := by omega
          exact Or.inl ⟨hz ▸ hnew, h0⟩
        · exact Or.inr ⟨hnew, le_rfl, h0⟩
    rcases hT₁ with ⟨hT₁, h0⟩ | ⟨hT₁, hcover, hne⟩
    · rw [wp_ite_pos h0]
      exact ⟨T₁, hr₁, hs₁, hf₁', hT₁⟩
    rw [wp_ite_neg hne, wp_bind, ← hr₁]
    have hfile : (BitVec.ofNat 32 (Proghdr.filesz ph)).toNat ≤ Proghdr.filesz ph :=
      Nat.mod_le _ _
    refine (hs₁.loadseg hT₁ (by omega)).imp ?_
    rintro r₂ m₂ ⟨hs₂, hf₂⟩
    refine wp_ite.mpr ⟨fun _ => ⟨T₁, rfl, hs₂, hf₁'.trans hf₂, hT₁⟩, fun _ => ?_⟩
    refine (ih hs₂ hT₁).imp ?_
    rintro r₃ m₃ ⟨T₃, hr₃, hs₃, hf₃, hT₃⟩
    exact ⟨T₃, hr₃, hs₃, (hf₁'.trans hf₂).trans hf₃, hT₃⟩

end Space

end Xv6
