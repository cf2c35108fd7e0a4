import Xv6.Vm.Copy

/-!
# The page table of a process

A process of size `sz` has its user pages below `sz`, rounded up, and above them nothing but the
trapframe and the trampoline.  The functions that change a process's memory keep this.
-/

namespace Xv6

open Finset Layout Function

/-! ## Entries -/

variable {perm : Pte} {pa : ℕ}

lemma pa2pte_and_not {g : Pte} (hg : IsFlags g) : pa2pte pa &&& ~~~g = pa2pte pa := by
  have hsplit : pa2pte pa = pa2pte pa &&& g ||| pa2pte pa &&& ~~~g := by
    rw [← BitVec.and_or_distrib_left, BitVec.or_not_self, BitVec.and_allOnes]
  rw [pa2pte_and hg, BitVec.zero_or] at hsplit
  exact hsplit.symm

lemma leafEntry_and_not_U : leafEntry pa perm &&& ~~~PTE_U = leafEntry pa (perm &&& ~~~PTE_U) := by
  unfold leafEntry
  rw [BitVec.and_comm, BitVec.and_or_distrib_left, BitVec.and_or_distrib_left,
    BitVec.and_comm _ (pa2pte pa), pa2pte_and_not (by decide), BitVec.and_comm _ perm,
    show ~~~PTE_U &&& PTE_V = PTE_V by decide]

lemma isFlags_and (h : IsFlags perm) (g : Pte) : IsFlags (perm &&& g) := by
  unfold IsFlags at *
  rw [BitVec.toNat_and]
  exact lt_of_le_of_lt Nat.and_le_left h

variable [Layout] {m m' : Mem} {T T' T₀ : PageTable} {R : Multiset ℕ} {sz tf : ℕ}

omit [Layout] in
lemma has_R_or_V (perm : Pte) : Pte.has (perm ||| PTE_V) PTE_R = Pte.has perm PTE_R := by
  unfold Pte.has
  rw [BitVec.and_comm, BitVec.and_or_distrib_left, BitVec.and_comm, show PTE_R &&& PTE_V = 0#64 by
    decide, BitVec.or_zero]

/-- An entry of user memory: a physical page that is at least readable. -/
def UserLeaf (e : Pte) : Prop :=
  ∃ pa perm, IsPhys pa ∧ IsFlags perm ∧ Pte.has perm PTE_R = true ∧ e = leafEntry pa perm

lemma UserLeaf.copy {e : Pte} (h : UserLeaf e) (hp : IsPhys pa) :
    UserLeaf (leafEntry pa (pteFlags e)) := by
  obtain ⟨pa', perm, _, hperm, hR, rfl⟩ := h
  refine ⟨pa, _, hp, isFlags_pteFlags _, ?_, rfl⟩
  rw [pteFlags_leafEntry hperm, has_R_or_V]
  exact hR

lemma UserLeaf.readable {e : Pte} (h : UserLeaf e) : IsPhys (pte2pa e) ∧ e.has PTE_R = true := by
  obtain ⟨pa, perm, hpa, hperm, hR, rfl⟩ := h
  rw [pte2pa_leafEntry hpa hperm, leafEntry_has (by decide), has_R_or_V]
  exact ⟨hpa, hR⟩

lemma UserLeaf.clear {e : Pte} (h : UserLeaf e) :
    UserLeaf (e &&& ~~~PTE_U) ∧ pte2pa (e &&& ~~~PTE_U) = pte2pa e := by
  obtain ⟨pa, perm, hpa, hperm, hR, rfl⟩ := h
  rw [leafEntry_and_not_U, pte2pa_leafEntry hpa hperm, pte2pa_leafEntry hpa (isFlags_and hperm _)]
  refine ⟨⟨pa, _, hpa, isFlags_and hperm _, ?_, rfl⟩, rfl⟩
  unfold Pte.has at *
  rwa [BitVec.and_assoc, show ~~~PTE_U &&& PTE_R = PTE_R by decide]

/-- The page table `T` is that of a process of size `sz` with its trapframe at `tf`. -/
structure UserTable (T : PageTable) (sz tf : ℕ) : Prop where
  size_le : sz ≤ TRAPFRAME
  user : ∀ v e, v < UPAGES → T.leaf v = some e → v < pagesOf sz ∧ UserLeaf e
  trapframe : T.leaf UPAGES = some (leafEntry tf (PTE_R ||| PTE_W))
  trampoline : T.leaf (UPAGES + 1) = some (leafEntry trampoline (PTE_R ||| PTE_X))
  top : ∀ v, UPAGES + 1 < v → T.leaf v = none

namespace UserTable

variable {sz' v : ℕ}

section

variable (h : UserTable T sz tf)
include h

/-- What changes user memory only keeps the pages above it. -/
lemma of_user (hsz : sz' ≤ TRAPFRAME) (htop : ∀ v, UPAGES ≤ v → T'.leaf v = T.leaf v)
    (huser : ∀ v e, v < UPAGES → T'.leaf v = some e → v < pagesOf sz' ∧ UserLeaf e) :
    UserTable T' sz' tf where
  size_le := hsz
  user := huser
  trapframe := by rw [htop _ le_rfl, h.trapframe]
  trampoline := by rw [htop _ (by omega), h.trampoline]
  top v hv := by rw [htop _ (by omega), h.top v hv]

/-- Only the leaves matter. -/
lemma congr (hl : T'.leaf = T.leaf) : UserTable T' sz tf :=
  h.of_user h.size_le (fun v _ => by rw [hl]) fun v e hv he => h.user v e hv (hl ▸ he)

lemma noUser : T.NoUser := by
  intro v e hv he
  have hcase : v = UPAGES ∨ v = UPAGES + 1 ∨ UPAGES + 1 < v := by omega
  rcases hcase with rfl | rfl | hlt
  · obtain rfl := Option.some.inj (he.symm.trans h.trapframe)
    rw [leafEntry_has (by decide)]
    decide
  · obtain rfl := Option.some.inj (he.symm.trans h.trampoline)
    rw [leafEntry_has (by decide)]
    decide
  · rw [h.top v hlt] at he
    exact absurd he (by simp)

lemma eq_none (hv : pagesOf sz ≤ v) (hlt : v < UPAGES) : T.leaf v = none := by
  cases hl : T.leaf v with
  | none => rfl
  | some e => exact absurd (h.user v e hlt hl).1 (by omega)

/-- Lazy growth: only the size changes. -/
lemma grow (hle : sz ≤ sz') (hsz : sz' ≤ TRAPFRAME) : UserTable T sz' tf :=
  h.of_user hsz (fun _ _ => rfl) fun v e hv he =>
    ⟨lt_of_lt_of_le (h.user v e hv he).1 (pagesOf_mono hle), (h.user v e hv he).2⟩

lemma fresh (hle : sz ≤ sz') (hsz : sz' ≤ TRAPFRAME)
    (hperm : IsFlags perm) (hR : Pte.has perm PTE_R = true)
    (hf : Fresh T.leaf T'.leaf (pagesOf sz) (pagesOf sz') perm) : UserTable T' sz' tf := by
  have hbound := pagesOf_le hsz
  refine h.of_user hsz (fun v hv => hf.outside v (by omega)) fun v e hv he => ?_
  by_cases hin : pagesOf sz ≤ v ∧ v < pagesOf sz'
  · obtain ⟨pa, hpa, hl⟩ := hf.inside v hin.1 hin.2
    exact ⟨hin.2, pa, perm, hpa, hperm, hR, Option.some.inj (he.symm.trans hl)⟩
  · rw [hf.outside v hin] at he
    exact ⟨lt_of_lt_of_le (h.user v e hv he).1 (pagesOf_mono hle), (h.user v e hv he).2⟩

lemma shrink (hle : sz' ≤ sz)
    (hl : T'.leaf = clearLeaves T.leaf (pagesOf sz') (pagesOf sz - pagesOf sz')) :
    UserTable T' sz' tf := by
  have hsz := h.size_le
  have hbound := pagesOf_le hsz
  have hmono := pagesOf_mono hle
  refine h.of_user (by omega) (fun v hv => ?_) fun v e hv he => ?_
  · rw [hl]
    exact if_neg (by omega)
  · rw [hl, clearLeaves] at he
    split at he
    · exact absurd he (by simp)
    · obtain ⟨hlt, hleaf⟩ := h.user v e hv he
      exact ⟨by omega, hleaf⟩

lemma faulted {a b : ℕ} (hf : Faulted T.leaf T'.leaf sz a b) : UserTable T' sz tf := by
  refine h.of_user h.size_le (fun v hv => ?_) fun v e hv he => ?_
  · rcases hf v with heq | ⟨_, _, _, hlt, _⟩
    · exact heq
    · exact absurd (lt_UPAGES_of_mul_lt hlt h.size_le) (by omega)
  · rcases hf v with heq | ⟨_, _, _, hlt, pa, hpa, hl⟩
    · exact h.user v e hv (heq ▸ he)
    · refine ⟨?_, pa, faultPerm, hpa, by decide, by decide, Option.some.inj (he.symm.trans hl)⟩
      unfold pagesOf
      unfold PGSIZE at *
      omega

end

lemma copied {tf₀ : ℕ} (h : UserTable T 0 tf) (h₀ : UserTable T₀ sz tf₀)
    (hc : Copied T₀.leaf T.leaf T'.leaf (pagesOf sz)) : UserTable T' sz tf := by
  have hbound := pagesOf_le h₀.size_le
  refine h.of_user h₀.size_le (fun v hv => hc.outside v (by omega)) fun v e hv he => ?_
  have hnone : T.leaf v = none := h.eq_none (Nat.zero_le v) hv
  by_cases hlt : v < pagesOf sz
  · refine ⟨hlt, ?_⟩
    cases hl : T₀.leaf v with
    | none =>
      rw [hc.none v hlt hl, hnone] at he
      exact absurd he (by simp)
    | some e₀ =>
      obtain ⟨pa, hpa, hl'⟩ := hc.some v hlt e₀ hl
      obtain rfl := Option.some.inj (he.symm.trans hl')
      exact (h₀.user v e₀ hv hl).2.copy hpa
  · rw [hc.outside v (by omega), hnone] at he
    exact absurd he (by simp)

lemma cleared {e : Pte} (h : UserTable T sz tf) (hv : v < UPAGES) (hleaf : T.leaf v = some e)
    (hl : T'.leaf = update T.leaf v (some (e &&& ~~~PTE_U))) : UserTable T' sz tf := by
  refine h.of_user h.size_le (fun u hu => ?_) fun u e' hu he => ?_
  · rw [hl, update_of_ne (by omega)]
  · by_cases huv : u = v
    · rw [hl, huv, update_self] at he
      obtain rfl := Option.some.inj he
      rw [huv]
      exact ⟨(h.user v e hv hleaf).1, (h.user v e hv hleaf).2.clear.1⟩
    · rw [hl, update_of_ne huv] at he
      exact h.user u e' hu he

end UserTable

/-! ## `proc_pagetable` and `proc_freepagetable` -/

omit [Layout] in
lemma TRAPFRAME_eq : TRAPFRAME = UPAGES * PGSIZE := by decide

omit [Layout] in
lemma TRAMPOLINE_eq : TRAMPOLINE = (UPAGES + 1) * PGSIZE := by decide

/-- A table of one page. -/
def PageTable.empty (root : ℕ) : PageTable where
  root := root
  mid _ := none
  low _ _ := none
  leaf _ := none
  mid_lt _ h := absurd rfl h
  low_lt _ _ h := absurd rfl h
  leaf_low _ h := absurd rfl h
  leaf_valid _ _ h := by simp at h

omit [Layout] in
lemma PageTable.tablePages_empty (root : ℕ) : (PageTable.empty root).tablePages = {root} := by
  rw [tablePages, gather_below]
  simp [node, empty]

lemma Mem.Used.uvmcreate (h : m.Used R) : Returns Xv6.uvmcreate (fun r m' => Frame m m' R ∧
    ((r = 0 ∧ m'.Used R) ∨ (IsPhys r ∧ Owns m' (PageTable.empty r) R))) m := by
  simp only [Returns, Xv6.uvmcreate, wp_bind]
  refine (kalloc_spec h).imp fun r m₁ hk => ?_
  rcases hk with ⟨rfl, hused, hpage⟩ | ⟨hr, hused, hpage⟩
  · rw [wp_ite_pos rfl]
    exact ⟨.of_eq hpage, Or.inl ⟨rfl, hused⟩⟩
  · have hnot := (Multiset.nodup_cons.mp hused.nodup).1
    rw [wp_ite_neg hr.pos.ne']
    simp only [memset, wp_bind, wp_modify, wp_pure]
    refine ⟨(hused.frame_cons hpage le_rfl).trans (.write hr hnot _),
      Or.inr ⟨hr, ⟨?_, ?_, ?_⟩, ?_⟩⟩
    · intro i hi
      have hroot : (PageTable.empty r).root = r := rfl
      rw [hroot, Mem.write_page_self]
      exact get64_fill_zero _ hi
    · exact fun i p hp => absurd hp (by simp [PageTable.empty])
    · exact fun i j p hp => absurd hp (by simp [PageTable.empty])
    · rw [PageTable.tablePages_empty, Multiset.singleton_add]
      exact hused.write (Multiset.mem_cons_self r R) _

/-- Mapping one of the two pages above user memory. -/
lemma Owns.mapTop {v : ℕ} (h : Owns m T R) (hv : v ≤ UPAGES + 1) (hleaf : T.leaf v = none) :
    Returns (mappages T.root (v * PGSIZE) PGSIZE pa perm) (fun r m' => ∃ T' : PageTable,
      T'.root = T.root ∧ Owns m' T' R ∧ Frame m m' R ∧
      ((r = -1 ∧ T'.leaf = T.leaf) ∨
       (r = 0 ∧ T'.leaf = update T.leaf v (some (leafEntry pa perm))))) m := by
  have hva : v * PGSIZE < MAXVA := by
    unfold UPAGES TRAPFRAME TRAMPOLINE MAXVA PGSIZE at *
    omega
  have hmap := h.mappages_one pa perm (Nat.mul_mod_left ..) hva
    (by rwa [pageOf_mul])
  rwa [pageOf_mul] at hmap

/-- A table without leaves is freed by `uvmfree` as well. -/
lemma Owns.uvmfree_zero (h : Owns m T R) (hleaf : ∀ v, T.leaf v = none) :
    Returns (Xv6.uvmfree T.root 0) (fun _ m' => m'.Used R ∧ Frame m m' R) m := by
  have hpages : T.userPages = 0 := leafPages_eq_zero fun v _ _ => hleaf v
  have hs : Space m T R := by rwa [Space, hpages, zero_add]
  exact hs.uvmfree (Nat.zero_le _) fun v hv => absurd (hleaf v) hv

/-- `proc_pagetable` makes a table without user memory, or takes no page. -/
lemma Mem.Used.procPagetable (h : m.Used R) : Returns (Xv6.procPagetable tf) (fun r m' =>
    Frame m m' R ∧ ((r = 0 ∧ m'.Used R) ∨
      (r ≠ 0 ∧ ∃ T : PageTable, T.root = r ∧ Space m' T R ∧ UserTable T 0 tf))) m := by
  simp only [Returns, Xv6.procPagetable, wp_bind]
  refine h.uvmcreate.imp ?_
  rintro r m₁ ⟨hf₁, hres⟩
  rcases hres with ⟨rfl, hu₁⟩ | ⟨hr, ho₁⟩
  · rw [wp_ite_pos rfl]
    exact ⟨hf₁, Or.inl ⟨rfl, hu₁⟩⟩
  rw [wp_ite_neg hr.pos.ne', wp_bind, TRAMPOLINE_eq]
  refine (ho₁.mapTop le_rfl rfl).imp ?_
  rintro r₂ m₂ ⟨T₂, hr₂, ho₂, hf₂, hres₂⟩
  change T₂.root = r at hr₂
  rw [← hr₂]
  rcases hres₂ with ⟨rfl, hl₂⟩ | ⟨rfl, hl₂⟩
  · rw [wp_ite_pos (by decide)]
    simp only [wp_bind]
    refine (ho₂.uvmfree_zero fun v => by rw [hl₂]; rfl).imp ?_
    rintro _ m₃ ⟨hu₃, hf₃⟩
    exact ⟨(hf₁.trans hf₂).trans hf₃, Or.inl ⟨rfl, hu₃⟩⟩
  rw [wp_ite_neg (by decide), wp_bind, TRAPFRAME_eq]
  have hleaf : T₂.leaf UPAGES = none := by
    rw [hl₂, update_of_ne (by omega)]
    rfl
  refine (ho₂.mapTop (by omega) hleaf).imp ?_
  rintro r₃ m₃ ⟨T₃, hr₃, ho₃, hf₃, hres₃⟩
  rw [← hr₃]
  rcases hres₃ with ⟨rfl, hl₃⟩ | ⟨rfl, hl₃⟩
  · rw [wp_ite_pos (by decide)]
    simp only [wp_bind]
    have hun := Owns.uvmunmap (m := m₃) (T := T₃) (R := R) false (n := 1) (v := UPAGES + 1)
      (by simpa using ho₃) (by decide)
    refine hun.imp ?_
    rintro _ m₄ ⟨T₄, hr₄, hl₄, ho₄, hf₄⟩
    rw [← PageTable.root_eq hr₄]
    have hl : ∀ v, T₄.leaf v = none := fun v => by
      rw [hl₄, clearLeaves, hl₃, hl₂]
      split
      · rfl
      · rw [update_of_ne (by omega)]
        rfl
    refine (ho₄.uvmfree_zero hl).imp ?_
    rintro _ m₅ ⟨hu₅, hf₅⟩
    exact ⟨(((hf₁.trans hf₂).trans hf₃).trans hf₄).trans hf₅, Or.inl ⟨rfl, hu₅⟩⟩
  rw [wp_ite_neg (by decide)]
  have hother : ∀ v, v ≠ UPAGES → v ≠ UPAGES + 1 → T₃.leaf v = none := fun v h₁ h₂ => by
    rw [hl₃, hl₂, update_of_ne h₁, update_of_ne h₂]
    rfl
  have hpages : T₃.userPages = 0 := leafPages_eq_zero fun v _ hv => hother v (by omega) (by omega)
  refine ⟨(hf₁.trans hf₂).trans hf₃, Or.inr ⟨?_, T₃, rfl, ?_, Nat.zero_le _, ?_, ?_, ?_, ?_⟩⟩
  · rw [hr₃, hr₂]
    exact hr.pos.ne'
  · rwa [Space, hpages, zero_add]
  · intro v e hv he
    rw [hother v (by omega) (by omega)] at he
    exact absurd he (by simp)
  · rw [hl₃, update_self]
  · rw [hl₃, hl₂, update_of_ne (by omega), update_self]
  · exact fun v hv => hother v (by omega) (by omega)

/-- `proc_freepagetable` gives back the table and the user memory, but not the trapframe. -/
lemma Space.procFreepagetable (h : Space m T R) (hT : UserTable T sz tf) :
    Returns (Xv6.procFreepagetable T.root sz) (fun _ m' => m'.Used R ∧ Frame m m' R) m := by
  simp only [Returns, Xv6.procFreepagetable, wp_bind]
  rw [TRAMPOLINE_eq, TRAPFRAME_eq]
  have hun := Owns.uvmunmap (m := m) (T := T) (R := T.userPages + R) false (n := 1) (v := UPAGES + 1)
    (by simpa using h) (by decide)
  refine hun.imp ?_
  rintro _ m₁ ⟨T₁, hr₁, hl₁, ho₁, hf₁⟩
  have hun₁ := Owns.uvmunmap (m := m₁) (T := T₁) (R := T.userPages + R) false (n := 1) (v := UPAGES)
    (by simpa using ho₁) (by decide)
  rw [PageTable.root_eq hr₁] at hun₁
  refine hun₁.imp ?_
  rintro _ m₂ ⟨T₂, hr₂, hl₂, ho₂, hf₂⟩
  have hl : ∀ v < UPAGES, T₂.leaf v = T.leaf v := fun v hv => by
    rw [hl₂, hl₁, clearLeaves, if_neg (by omega), clearLeaves, if_neg (by omega)]
  have hpages : T₂.userPages = T.userPages := leafPages_congr fun v _ hv => hl v hv
  have hs₂ : Space m₂ T₂ R := by rwa [Space, hpages]
  rw [← PageTable.root_eq hr₁, ← PageTable.root_eq hr₂]
  refine (hs₂.uvmfree hT.size_le fun v hv => ?_).imp fun _ m₃ h₃ => ⟨h₃.1, ?_⟩
  · by_cases hlt : v < UPAGES
    · rw [hl v hlt] at hv
      obtain ⟨e, he⟩ := Option.ne_none_iff_exists'.mp hv
      exact (hT.user v e hlt he).1
    · exfalso
      apply hv
      rw [hl₂, hl₁]
      unfold clearLeaves
      split
      · rfl
      · split
        · rfl
        · exact hT.top v (by omega)
  · exact ((hf₁.trans hf₂).mono (Multiset.le_add_left _ _)).trans h₃.2

end Xv6
