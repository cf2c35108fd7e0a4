import Xv6.Vm.Freewalk

/-!
# User memory

`uvmunmap`, `uvmalloc`, `uvmcopy`, `vmfault` and the copy functions on a user page table that owns
the pages its leaves below `TRAPFRAME` refer to.  Each specification says which leaves change, that
pages are neither lost nor freed twice, and that the rest `R` of the memory is untouched, whether
the function succeeds or fails.
-/

namespace Xv6

open Finset Function

section Leaves

variable {f g : ℕ → Option Pte} {a b c v : ℕ}

lemma leafPages_congr (h : ∀ v, a ≤ v → v < b → f v = g v) : leafPages f a b = leafPages g a b :=
  gather_congr fun v hv => by
    obtain ⟨h₁, h₂⟩ := mem_Ico.mp hv
    rw [h v h₁ h₂]

lemma leafPages_split (hab : a ≤ b) (hbc : b ≤ c) :
    leafPages f a c = leafPages f a b + leafPages f b c :=
  (sum_Ico_consecutive _ hab hbc).symm

lemma leafPages_succ (hab : a < b) :
    leafPages f a b = single ((f a).map pte2pa) + leafPages f (a + 1) b :=
  sum_eq_sum_Ico_succ_bot hab _

lemma leafPages_eq_zero (h : ∀ v, a ≤ v → v < b → f v = none) : leafPages f a b = 0 := by
  rw [leafPages, gather]
  refine sum_eq_zero fun v hv => ?_
  obtain ⟨h₁, h₂⟩ := mem_Ico.mp hv
  simp [h v h₁ h₂]

lemma leafPages_mono (h : ∀ v, a ≤ v → v < b → f v = none ∨ f v = g v) :
    leafPages f a b ≤ leafPages g a b :=
  sum_le_sum fun v (hv : v ∈ Ico a b) => by
    obtain ⟨h₁, h₂⟩ := mem_Ico.mp hv
    rcases h v h₁ h₂ with hv | hv <;> simp [hv]

lemma leafPages_update (ha : a ≤ v) (hb : v < b) (o : Option Pte) :
    leafPages (update f v o) a b + single ((f v).map pte2pa) =
      leafPages f a b + single (o.map pte2pa) := by
  have heq : (fun u => (update f v o u).map pte2pa) =
      update (fun u => (f u).map pte2pa) v (o.map pte2pa) :=
    comp_update (Option.map pte2pa) f v o
  rw [leafPages, heq]
  exact gather_update (mem_Ico.mpr ⟨ha, hb⟩) _

lemma mem_leafPages {pg : ℕ} :
    pg ∈ leafPages f a b ↔ ∃ v, a ≤ v ∧ v < b ∧ ∃ e, f v = some e ∧ pte2pa e = pg := by
  simp only [leafPages, mem_gather, mem_Ico, Option.map_eq_some_iff, and_assoc]

/-- The leaves without those of the `n` pages from `a` on. -/
def clearLeaves (f : ℕ → Option Pte) (a n : ℕ) : ℕ → Option Pte :=
  fun v => if a ≤ v ∧ v < a + n then none else f v

lemma clearLeaves_succ (n : ℕ) :
    clearLeaves f a (n + 1) = clearLeaves (update f a none) (a + 1) n := by
  funext v
  unfold clearLeaves
  by_cases hva : v = a
  · subst hva
    rw [if_pos (by omega), if_neg (by omega), update_self]
  · rw [update_of_ne hva]
    by_cases hv : a ≤ v ∧ v < a + (n + 1)
    · rw [if_pos hv, if_pos (by omega)]
    · rw [if_neg hv, if_neg (by omega)]

lemma clearLeaves_eq_self {n : ℕ} (h : ∀ u, a ≤ u → u < a + n → f u = none) : clearLeaves f a n = f := by
  funext u
  unfold clearLeaves
  split
  · exact (h u ‹_ ∧ _›.1 ‹_ ∧ _›.2).symm
  · rfl

end Leaves

/-! ## Sizes in pages -/

/-- The number of pages below `TRAPFRAME`. -/
def UPAGES : ℕ := TRAPFRAME / PGSIZE

/-- The number of pages that hold `sz` bytes. -/
def pagesOf (sz : ℕ) : ℕ := (sz + PGSIZE - 1) / PGSIZE

lemma UPAGES_mul : UPAGES * PGSIZE = TRAPFRAME := by decide

lemma pgRoundUp_eq {n : ℕ} (h : n ≤ TRAPFRAME) : pgRoundUp n = pagesOf n * PGSIZE := by
  unfold pgRoundUp pagesOf
  unfold TRAPFRAME TRAMPOLINE MAXVA PGSIZE at *
  omega

lemma pagesOf_mono {a b : ℕ} (h : a ≤ b) : pagesOf a ≤ pagesOf b :=
  Nat.div_le_div_right (by omega)

lemma pagesOf_le {sz : ℕ} (h : sz ≤ TRAPFRAME) : pagesOf sz ≤ UPAGES := by
  unfold pagesOf UPAGES
  unfold TRAPFRAME TRAMPOLINE MAXVA PGSIZE at *
  omega

lemma pagesOf_mul (v : ℕ) : pagesOf (v * PGSIZE) = v := by
  unfold pagesOf PGSIZE
  omega

lemma mul_lt_maxva {v : ℕ} (h : v < UPAGES) : v * PGSIZE < MAXVA := by
  unfold UPAGES TRAPFRAME TRAMPOLINE MAXVA PGSIZE at *
  omega

lemma mul_le_maxva {v : ℕ} (h : v ≤ UPAGES) : v * PGSIZE ≤ MAXVA := by
  unfold UPAGES TRAPFRAME TRAMPOLINE MAXVA PGSIZE at *
  omega

lemma pageOf_mul (v : ℕ) : pageOf (v * PGSIZE) = v := Nat.mul_div_cancel v (by decide)

variable [Layout] {m m' : Mem} {T : PageTable} {R : Multiset ℕ}

/-! ## `uvmunmap` -/

namespace Owns

/-- A page outside of the table may be freed. -/
lemma kfree {pg : ℕ} (h : Owns m T (pg ::ₘ R)) : Returns (Xv6.kfree pg) (fun _ m' =>
    Owns m' T R ∧ Frame m m' R) m := by
  have hused := h.used
  rw [Multiset.add_cons] at hused
  have hnot := (Multiset.nodup_cons.mp hused.nodup).1
  refine (kfree_spec hused).imp ?_
  rintro _ m' ⟨hused', hpage⟩
  refine ⟨⟨?_, hused'⟩, hused.frame_cons hpage (Multiset.le_add_left _ _)⟩
  exact h.repr.congr fun q hq => hpage q fun heq =>
    hnot (heq ▸ Multiset.mem_add.mpr (Or.inl hq))

omit [Layout] in
lemma leaf_eq_none (T : PageTable) {va : ℕ} (hva : va < MAXVA)
    (h : T.low (px 2 va) (px 1 va) = none) : T.leaf (pageOf va) = none := by
  by_contra hl
  have hlow := T.leaf_low _ hl
  rw [← (px_two hva).1, ← (px_one va).1] at hlow
  exact hlow h

/-- Unmapping one page. -/
lemma uvmunmapPage {doFree : Bool} {va : ℕ} (hva : va < MAXVA)
    (h : Owns m T ((if doFree then single ((T.leaf (pageOf va)).map pte2pa) else 0) + R)) :
    Returns (Xv6.uvmunmapPage T.root doFree va) (fun _ m' => ∃ T' : PageTable,
      T'.node = T.node ∧ T'.leaf = update T.leaf (pageOf va) none ∧ Owns m' T' R ∧
      Frame m m' R) m := by
  have hskip : T.leaf (pageOf va) = none → ∃ T' : PageTable, T'.node = T.node ∧
      T'.leaf = update T.leaf (pageOf va) none ∧ Owns m T' R ∧ Frame m m R := by
    intro hl
    refine ⟨T, rfl, (update_eq_self_iff.mpr hl.symm).symm, ?_, Frame.refl _ _⟩
    simpa [hl] using h
  -- What is left to do once the page itself is out of the way.
  have hclear : ∀ {p m₁}, T.low (px 2 va) (px 1 va) = some p → Owns m₁ T R → Frame m m₁ R →
      wp (setPte p (px 0 va) 0) (fun _ m' => ∃ T' : PageTable, T'.node = T.node ∧
        T'.leaf = update T.leaf (pageOf va) none ∧ Owns m' T' R ∧ Frame m m' R)
        (fun _ => False) m₁ := by
    intro p m₁ hlow h₁ hf₁
    obtain ⟨T', hroot, hleaf, howns, hframe⟩ := h₁.setPte_low (o := none) hva hlow (by simp)
    exact ⟨T', hroot, hleaf, howns, hf₁.trans hframe⟩
  simp only [Returns, Xv6.uvmunmapPage, wp_bind]
  refine (h.walk_false hva).imp ?_
  rintro r m₁ ⟨hr, hm⟩
  rw [hr, hm]
  cases hlow : T.low (px 2 va) (px 1 va) with
  | none => exact hskip (leaf_eq_none T hva hlow)
  | some p =>
    simp only [Option.map_some, getPte, wp_bind, wp_get, wp_pure, h.getPte_low hva hlow,
      getD_has_V _ (T.leaf_valid _)]
    cases hl : T.leaf (pageOf va) with
    | none =>
      rw [wp_ite_pos (by simp)]
      exact hskip hl
    | some e =>
      rw [wp_ite_neg (by simp)]
      rw [hl] at h
      cases doFree with
      | false => exact hclear hlow (by simpa using h) (Frame.refl _ _)
      | true =>
        rw [wp_ite_pos rfl, wp_bind]
        have h' : Owns m T (pte2pa e ::ₘ R) := by simpa using h
        refine h'.kfree.imp ?_
        rintro _ m₁ ⟨ho, hf⟩
        exact hclear hlow ho hf

/-- The loop of `uvmunmap`, over the `n` pages from `v` on. -/
lemma uvmunmapLoop (doFree : Bool) (n : ℕ) {v : ℕ} {m : Mem} {T : PageTable}
    (h : Owns m T ((if doFree then leafPages T.leaf v (v + n) else 0) + R))
    (hmax : (v + n) * PGSIZE ≤ MAXVA) :
    Returns (Xv6.uvmunmapLoop T.root doFree n (v * PGSIZE)) (fun _ m' => ∃ T' : PageTable,
      T'.node = T.node ∧ T'.leaf = clearLeaves T.leaf v n ∧ Owns m' T' R ∧ Frame m m' R) m := by
  induction n generalizing v m T with
  | zero =>
    refine ⟨T, rfl, ?_, ?_, Frame.refl _ _⟩
    · funext u
      exact (if_neg (by omega)).symm
    · have hz : leafPages T.leaf v v = 0 := leafPages_eq_zero fun u _ _ => by omega
      simpa [hz] using h
  | succ n ih =>
    have hpage : pageOf (v * PGSIZE) = v := Nat.mul_div_cancel v (by decide)
    have hva : v * PGSIZE < MAXVA := by
      unfold PGSIZE at *
      omega
    have hend : v + 1 + n = v + (n + 1) := by omega
    have hmax' : (v + 1 + n) * PGSIZE ≤ MAXVA := by simpa only [hend] using hmax
    have hsplit := leafPages_succ (f := T.leaf) (show v < v + (n + 1) by omega)
    simp only [Returns, Xv6.uvmunmapLoop, wp_bind]
    have h₀ : Owns m T ((if doFree then single ((T.leaf (pageOf (v * PGSIZE))).map pte2pa) else 0) +
        ((if doFree then leafPages T.leaf (v + 1) (v + 1 + n) else 0) + R)) := by
      rw [hpage]
      cases doFree with
      | false => simpa using h
      | true =>
        rw [if_pos rfl, hsplit] at h
        rw [if_pos rfl, if_pos rfl, ← add_assoc, hend]
        exact h
    refine (h₀.uvmunmapPage hva).imp ?_
    rintro _ m₁ ⟨T₁, hr₁, hl₁, ho₁, hf₁⟩
    rw [hpage] at hl₁
    have hrest : leafPages T.leaf (v + 1) (v + 1 + n) = leafPages T₁.leaf (v + 1) (v + 1 + n) :=
      leafPages_congr fun u hu _ => by rw [hl₁, update_of_ne (by omega)]
    rw [hrest] at ho₁
    have hnext := ih ho₁ hmax'
    rw [PageTable.root_eq hr₁, show (v + 1) * PGSIZE = v * PGSIZE + PGSIZE from Nat.succ_mul v PGSIZE] at hnext
    refine hnext.imp ?_
    rintro _ m₂ ⟨T₂, hr₂, hl₂, ho₂, hf₂⟩
    refine ⟨T₂, hr₂.trans hr₁, ?_, ho₂, ?_⟩
    · rw [hl₂, hl₁, clearLeaves_succ]
    · exact (hf₁.mono (Multiset.le_add_left _ _)).trans hf₂

/-- `uvmunmap`, of the `n` pages from `v` on. -/
lemma uvmunmap (doFree : Bool) {n v : ℕ}
    (h : Owns m T ((if doFree then leafPages T.leaf v (v + n) else 0) + R))
    (hmax : (v + n) * PGSIZE ≤ MAXVA) :
    Returns (Xv6.uvmunmap T.root (v * PGSIZE) n doFree) (fun _ m' => ∃ T' : PageTable,
      T'.node = T.node ∧ T'.leaf = clearLeaves T.leaf v n ∧ Owns m' T' R ∧ Frame m m' R) m := by
  simp only [Returns, Xv6.uvmunmap]
  rw [wp_ite_neg (by simp)]
  exact h.uvmunmapLoop doFree n hmax

end Owns

/-! ## User memory -/

/-- The user pages of a table. -/
def PageTable.userPages (T : PageTable) : Multiset ℕ := leafPages T.leaf 0 UPAGES

/-- Memory holds the table `T`; its own pages, its user pages and `R` are the pages in use. -/
abbrev Space (m : Mem) (T : PageTable) (R : Multiset ℕ) : Prop := Owns m T (T.userPages + R)

namespace Space

/-- Unmapping and freeing `n` user pages from `v` on. -/
lemma uvmunmap (h : Space m T R) {v n : ℕ} (hvn : v + n ≤ UPAGES) :
    Returns (Xv6.uvmunmap T.root (v * PGSIZE) n true) (fun _ m' => ∃ T' : PageTable,
      T'.node = T.node ∧ T'.leaf = clearLeaves T.leaf v n ∧ Space m' T' R ∧
      Frame m m' (T'.userPages + R)) m := by
  have hsplit : T.userPages = leafPages T.leaf v (v + n) +
      (leafPages T.leaf 0 v + leafPages T.leaf (v + n) UPAGES) := by
    rw [PageTable.userPages, leafPages_split (Nat.zero_le v) (show v ≤ UPAGES by omega),
      leafPages_split (Nat.le_add_right v n) hvn]
    abel
  have h' : Owns m T ((if true then leafPages T.leaf v (v + n) else 0) +
      (leafPages T.leaf 0 v + leafPages T.leaf (v + n) UPAGES + R)) := by
    rw [if_pos rfl, ← add_assoc, ← hsplit]
    exact h
  refine (h'.uvmunmap true (mul_le_maxva hvn)).imp ?_
  rintro _ m' ⟨T', hr, hl, ho, hf⟩
  have hpages : T'.userPages = leafPages T.leaf 0 v + leafPages T.leaf (v + n) UPAGES := by
    rw [PageTable.userPages, leafPages_split (Nat.zero_le v) (show v ≤ UPAGES by omega),
      leafPages_split (Nat.le_add_right v n) hvn, hl]
    have h₁ : leafPages (clearLeaves T.leaf v n) 0 v = leafPages T.leaf 0 v :=
      leafPages_congr fun u _ hu => if_neg (by omega)
    have h₂ : leafPages (clearLeaves T.leaf v n) v (v + n) = 0 :=
      leafPages_eq_zero fun u hu hu' => if_pos ⟨hu, hu'⟩
    have h₃ : leafPages (clearLeaves T.leaf v n) (v + n) UPAGES = leafPages T.leaf (v + n) UPAGES :=
      leafPages_congr fun u hu _ => if_neg (by omega)
    rw [h₁, h₂, h₃, zero_add]
  exact ⟨T', hr, hl, by rw [Space, hpages]; exact ho, by rw [hpages]; exact hf⟩

/-- `uvmdealloc`: the pages above the new size go. -/
lemma uvmdealloc (h : Space m T R) {oldsz newsz : ℕ} (hold : oldsz ≤ TRAPFRAME) :
    Returns (Xv6.uvmdealloc T.root oldsz newsz) (fun r m' => ∃ T' : PageTable,
      T'.node = T.node ∧ r = min oldsz newsz ∧
      T'.leaf = clearLeaves T.leaf (pagesOf newsz) (pagesOf oldsz - pagesOf newsz) ∧
      Space m' T' R ∧ Frame m m' (T'.userPages + R)) m := by
  simp only [Returns, Xv6.uvmdealloc]
  by_cases hge : newsz ≥ oldsz
  · rw [wp_ite_pos hge]
    refine ⟨T, rfl, (Nat.min_eq_left hge).symm, ?_, h, Frame.refl _ _⟩
    have hmono := pagesOf_mono hge
    exact (clearLeaves_eq_self fun u _ _ => by omega).symm
  · have hle := pagesOf_mono (show newsz ≤ oldsz by omega)
    have hmin : newsz = min oldsz newsz := by omega
    rw [wp_ite_neg hge, pgRoundUp_eq hold, pgRoundUp_eq (show newsz ≤ TRAPFRAME by omega)]
    by_cases hlt : pagesOf newsz * PGSIZE < pagesOf oldsz * PGSIZE
    · rw [if_pos hlt, wp_bind, ← Nat.sub_mul, Nat.mul_div_cancel _ (by decide)]
      have hbound := pagesOf_le hold
      refine (h.uvmunmap (by omega)).imp ?_
      rintro _ m' ⟨T', hr, hl, hs, hf⟩
      exact ⟨T', hr, hmin, hl, hs, hf⟩
    · have heq : pagesOf oldsz = pagesOf newsz := by
        unfold PGSIZE at hlt
        omega
      rw [if_neg hlt]
      refine ⟨T, rfl, hmin, ?_, h, Frame.refl _ _⟩
      exact (clearLeaves_eq_self fun u _ _ => by omega).symm

end Space
end Xv6
