import Xv6.Vm.View

/-!
# Growing and copying user memory

`uvmalloc`, `uvmcopy`, `vmfault` and `uvmfree`.  A page that is allocated is held by the caller until
`mappages` makes it a user page; if that fails it is freed again.
-/

namespace Xv6

open Finset Function

variable [Layout] {m m' : Mem} {T : PageTable} {R : Multiset ℕ} {p v : ℕ} {perm : Pte}

/-- The leaf entry that `mappages` makes. -/
def leafEntry (pa : ℕ) (perm : Pte) : Pte := pa2pte pa ||| perm ||| PTE_V

omit [Layout] in
lemma isFlags_or_V (h : IsFlags perm) : IsFlags (perm ||| PTE_V) := by
  unfold IsFlags at *
  rw [BitVec.toNat_or]
  exact Nat.or_lt_two_pow (n := 10) h (by decide)

omit [Layout] in
lemma leafEntry_has {pa : ℕ} {g : Pte} (hg : IsFlags g) :
    (leafEntry pa perm).has g = Pte.has (perm ||| PTE_V) g := by
  rw [leafEntry, BitVec.or_assoc, has_pa2pte_or hg]

lemma pte2pa_leafEntry (hp : IsPhys p) (hf : IsFlags perm) : pte2pa (leafEntry p perm) = p := by
  have hlt := hp.lt_two_pow
  rw [leafEntry, BitVec.or_assoc]
  exact pte2pa_pa2pte_or hp.aligned (by omega) (isFlags_or_V hf)

omit [Layout] in
lemma pteFlags_leafEntry (hf : IsFlags perm) : pteFlags (leafEntry p perm) = perm ||| PTE_V := by
  rw [leafEntry, BitVec.or_assoc]
  exact pteFlags_pa2pte_or (isFlags_or_V hf)

namespace Space

lemma kalloc (h : Space m T R) : Returns Xv6.kalloc (fun r m' => Frame m m' (T.userPages + R) ∧
    ((r = 0 ∧ Space m' T R) ∨ (IsPhys r ∧ Space m' T (r ::ₘ R)))) m := by
  refine (kalloc_spec h.used).imp fun r m' hr => ?_
  rcases hr with ⟨hr, hused, hpage⟩ | ⟨hr, hused, hpage⟩
  · exact ⟨.of_eq hpage, Or.inl ⟨hr, h.repr.congr fun pg _ => by rw [hpage], hused⟩⟩
  · have hnot := (Multiset.nodup_cons.mp hused.nodup).1
    refine ⟨hused.frame_cons hpage (Multiset.le_add_left _ _), Or.inr ⟨hr, ?_, ?_⟩⟩
    · exact h.repr.congr fun pg hpg => hpage pg fun heq =>
        hnot (Multiset.mem_add.mpr (Or.inl (heq ▸ hpg)))
    · rwa [Multiset.add_cons, Multiset.add_cons]

/-- A held page may be written. -/
lemma write_held (h : Space m T (p ::ₘ R)) (b : Bytes) : Space (m.write p b) T (p ::ₘ R) ∧
    Frame m (m.write p b) (T.userPages + R) := by
  have hnd := (Multiset.nodup_add.mp h.used.nodup).2.1
  rw [Multiset.add_cons] at hnd
  exact ⟨h.write (by simp) b, .write (h.used.isPhys (by simp)) (Multiset.nodup_cons.mp hnd).1 b⟩

lemma kfree (h : Space m T (p ::ₘ R)) : Returns (Xv6.kfree p) (fun _ m' => Space m' T R ∧
    Frame m m' (T.userPages + R)) m := by
  have h' : Owns m T (p ::ₘ (T.userPages + R)) := by
    rw [← Multiset.add_cons]
    exact h
  exact h'.kfree

omit [Layout] in
lemma userPages_update {T T' : PageTable} {e : Pte} (hleaf : T.leaf v = none) (hv : v < UPAGES)
    (hl : T'.leaf = update T.leaf v (some e)) :
    T'.userPages = pte2pa e ::ₘ T.userPages := by
  have hup := leafPages_update (f := T.leaf) (Nat.zero_le v) hv (some e)
  rw [hleaf] at hup
  simp only [Option.map_none, single_none, add_zero, Option.map_some, single_some] at hup
  rw [PageTable.userPages, hl, hup, add_comm, Multiset.singleton_add, PageTable.userPages]

/-- Mapping a held page makes it a user page; when there is no memory for the table it stays
held. -/
lemma map (h : Space m T (p ::ₘ R)) (hperm : IsFlags perm) (hv : v < UPAGES)
    (hleaf : T.leaf v = none) :
    Returns (mappages T.root (v * PGSIZE) PGSIZE p perm) (fun r m' => ∃ T' : PageTable,
      T'.root = T.root ∧ Frame m m' (T.userPages + p ::ₘ R) ∧
      ((r = -1 ∧ T'.leaf = T.leaf ∧ Space m' T' (p ::ₘ R)) ∨
       (r = 0 ∧ T'.leaf = update T.leaf v (some (leafEntry p perm)) ∧
        Space m' T' R))) m := by
  have hp : IsPhys p := h.used.isPhys (by simp)
  refine (h.mappages_one p perm (Nat.mul_mod_left ..) (mul_lt_maxva hv) (by rwa [pageOf_mul])).imp ?_
  rintro r m' ⟨T', hr, ho, hf, hres⟩
  refine ⟨T', hr, hf, ?_⟩
  rcases hres with ⟨h₁, h₂⟩ | ⟨h₁, h₂⟩
  · refine Or.inl ⟨h₁, h₂, ?_⟩
    rwa [Space, PageTable.userPages, h₂]
  · rw [pageOf_mul] at h₂
    refine Or.inr ⟨h₁, h₂, ?_⟩
    have hpages := userPages_update hleaf hv h₂
    rw [← leafEntry, pte2pa_leafEntry hp hperm] at hpages
    rwa [Space, hpages, Multiset.cons_add, ← Multiset.add_cons]

/-- Mapping a held page of zeros does not change what the user sees. -/
lemma sameView_map {T' : PageTable} (hp : IsPhys p) (hperm : IsFlags perm) (hleaf : T.leaf v = none)
    (hl : T'.leaf = update T.leaf v (some (leafEntry p perm)))
    (hf : Frame m m' (T.userPages + p ::ₘ R)) (hz : ∀ i < PGSIZE, m.page p i = 0) :
    SameView m T m' T' := by
  refine SameView.of_zero hleaf hl (hf.mono (Multiset.le_add_right _ _)) fun i hi => ?_
  rw [pte2pa_leafEntry hp hperm, hf.on p (by simp)]
  exact hz i hi

end Space

/-! ## `uvmalloc` -/

/-- The leaves `g` are `f`, with new ones for the pages from `a` up to `b`. -/
structure Fresh (f g : ℕ → Option Pte) (a b : ℕ) (perm : Pte) : Prop where
  outside : ∀ u, ¬(a ≤ u ∧ u < b) → g u = f u
  inside : ∀ u, a ≤ u → u < b → ∃ pa, IsPhys pa ∧ g u = some (leafEntry pa perm)

lemma Fresh.nil (f : ℕ → Option Pte) (a : ℕ) (perm : Pte) : Fresh f f a a perm where
  outside _ _ := rfl
  inside _ _ _ := by omega

variable {f g : ℕ → Option Pte} {a b : ℕ} {xperm : Pte}

lemma Fresh.snoc (h : Fresh f g a v perm) (hav : a ≤ v) (hp : IsPhys p) :
    Fresh f (update g v (some (leafEntry p perm))) a (v + 1) perm where
  outside u hu := by
    rw [update_of_ne (by omega), h.outside u (by omega)]
  inside u hu hu' := by
    by_cases huv : u = v
    · exact ⟨p, hp, by rw [huv, update_self]⟩
    · rw [update_of_ne huv]
      exact h.inside u hu (by omega)

/-- Undoing the growth. -/
lemma Fresh.clear (h : Fresh f g a b perm) (hab : a ≤ b)
    (hf : ∀ u, a ≤ u → u < b → f u = none) : clearLeaves g a (b - a) = f := by
  funext u
  unfold clearLeaves
  by_cases hu : a ≤ u ∧ u < b
  · rw [if_pos (by omega), hf u hu.1 hu.2]
  · rw [if_neg (by omega), h.outside u hu]

omit [Layout] in
lemma card_leafPages (h : ∀ u < b, f u ≠ none) :
    Multiset.card (leafPages f 0 b) = b := by
  rw [leafPages, gather, Multiset.card_sum]
  refine (sum_congr rfl fun u hu => ?_).trans (by simp : ∑ _u ∈ Ico 0 b, 1 = b)
  obtain ⟨e, he⟩ := Option.ne_none_iff_exists'.mp (h u (mem_Ico.mp hu).2)
  simp [he]

/-- The physical pages run out before the user addresses do. -/
lemma Space.lt_of_mapped (h : Space m T R) (hv : v ≤ UPAGES) (hmapped : ∀ u < v, T.leaf u ≠ none) :
    v < UPAGES := by
  have hsub : leafPages T.leaf 0 v ≤ T.tablePages + (T.userPages + R) := by
    rw [PageTable.userPages, leafPages_split (Nat.zero_le v) hv, add_assoc]
    exact (Multiset.le_add_right _ _).trans (Multiset.le_add_left _ _)
  have hcard := (Multiset.card_le_card hsub).trans h.used.card_le
  rw [card_leafPages hmapped] at hcard
  have hbig : 32768 < UPAGES := by decide
  omega

/-- A failing `uvmalloc` gives back what it took. -/
lemma Space.uvmalloc_undo (h : Space m T R) (hav : a ≤ v)
    (hv : v ≤ UPAGES) (hf : ∀ u, a ≤ u → u < UPAGES → f u = none) (hg : Fresh f T.leaf a v perm) :
    Returns (Xv6.uvmdealloc T.root (v * PGSIZE) (a * PGSIZE)) (fun _ m' => ∃ T' : PageTable,
      T'.root = T.root ∧ T'.leaf = f ∧ Space m' T' R ∧ Frame m m' (T'.userPages + R)) m := by
  have hle : v * PGSIZE ≤ TRAPFRAME := by
    rw [← UPAGES_mul]
    exact Nat.mul_le_mul_right _ hv
  refine (h.uvmdealloc hle).imp ?_
  rintro _ m' ⟨T', hr, _, hl, hs, hfr⟩
  refine ⟨T', PageTable.root_eq hr, ?_, hs, hfr⟩
  rw [hl, pagesOf_mul, pagesOf_mul]
  exact hg.clear hav fun u hu hu' => hf u hu (by omega)

lemma Space.uvmallocLoop {newsz : ℕ}
    (hperm : IsFlags (PTE_R ||| PTE_U ||| xperm)) (hf : ∀ u, a ≤ u → u < UPAGES → f u = none)
    (n : ℕ) {m : Mem} {T : PageTable} {v : ℕ} (h : Space m T R) (hav : a ≤ v) (hv : v ≤ UPAGES)
    (hg : Fresh f T.leaf a v (PTE_R ||| PTE_U ||| xperm))
    (hroom : v + n ≤ UPAGES ∨ ∀ u < a, f u ≠ none) :
    Returns (Xv6.uvmallocLoop T.root (a * PGSIZE) newsz xperm n (v * PGSIZE))
      (fun r m' => ∃ T' : PageTable, T'.root = T.root ∧ Space m' T' R ∧
        Frame m m' (leafPages f 0 UPAGES + R) ∧
        ((r = 0 ∧ T'.leaf = f) ∨
         (r = newsz ∧ v + n ≤ UPAGES ∧
          Fresh f T'.leaf a (v + n) (PTE_R ||| PTE_U ||| xperm) ∧ SameView m T m' T'))) m := by
  induction n generalizing m T v with
  | zero => exact ⟨T, rfl, h, Frame.refl _ _, Or.inr ⟨rfl, hv, hg, SameView.refl _ _⟩⟩
  | succ n ih =>
    have hlt : v < UPAGES := by
      rcases hroom with hroom | hroom
      · omega
      · refine h.lt_of_mapped hv fun u hu => ?_
        by_cases hua : a ≤ u
        · obtain ⟨pa, _, hpa⟩ := hg.inside u hua hu
          simp [hpa]
        · rw [hg.outside u (by omega)]
          exact hroom u (by omega)
    have hkept : leafPages f 0 UPAGES ≤ T.userPages := leafPages_mono fun u _ hu => by
      by_cases hua : a ≤ u
      · exact Or.inl (hf u hua hu)
      · exact Or.inr (hg.outside u (by omega)).symm
    have hsub : leafPages f 0 UPAGES + R ≤ T.userPages + R := add_le_add hkept le_rfl
    have hleaf : T.leaf v = none := by rw [hg.outside v (by omega), hf v hav hlt]
    simp only [Returns, Xv6.uvmallocLoop, wp_bind]
    refine h.kalloc.imp ?_
    rintro r m₁ ⟨hf₁, hr⟩
    have hf₁' := hf₁.mono hsub
    rcases hr with ⟨rfl, hs₁⟩ | ⟨hr, hs₁⟩
    · rw [wp_ite_pos rfl]
      simp only [wp_bind]
      refine (hs₁.uvmalloc_undo hav hv hf hg).imp ?_
      rintro _ m₂ ⟨T₂, hr₂, hl₂, hs₂, hf₂⟩
      rw [PageTable.userPages, hl₂] at hf₂
      exact ⟨T₂, hr₂, hs₂, hf₁'.trans hf₂, Or.inl ⟨rfl, hl₂⟩⟩
    · rw [wp_ite_neg hr.pos.ne']
      obtain ⟨hs₂, hf₂⟩ := hs₁.write_held ((m₁.page r).fill 0 PGSIZE 0)
      have hf₂' := hf₁'.trans (hf₂.mono hsub)
      simp only [memset, wp_bind, wp_modify]
      refine (hs₂.map hperm hlt hleaf).imp ?_
      rintro r₃ m₃ ⟨T₃, hr₃, hf₃, hres⟩
      have hf₃' := hf₂'.trans (hf₃.mono (hsub.trans
        (add_le_add le_rfl (Multiset.le_cons_self R r))))
      rcases hres with ⟨rfl, hl₃, hs₃⟩ | ⟨rfl, hl₃, hs₃⟩
      · rw [wp_ite_pos (by decide)]
        simp only [wp_bind]
        refine hs₃.kfree.imp ?_
        rintro _ m₄ ⟨hs₄, hf₄⟩
        rw [PageTable.userPages, hl₃, ← PageTable.userPages] at hf₄
        rw [← hl₃] at hg
        have hundo := hs₄.uvmalloc_undo hav hv hf hg
        rw [hr₃] at hundo
        refine hundo.imp ?_
        rintro _ m₅ ⟨T₅, hr₅, hl₅, hs₅, hf₅⟩
        rw [PageTable.userPages, hl₅] at hf₅
        exact ⟨T₅, hr₅, hs₅, (hf₃'.trans (hf₄.mono hsub)).trans hf₅, Or.inl ⟨rfl, hl₅⟩⟩
      · rw [wp_ite_neg (by decide)]
        have hg₃ : Fresh f T₃.leaf a (v + 1) (PTE_R ||| PTE_U ||| xperm) := by
          rw [hl₃]
          exact hg.snoc hav hr
        have hend : v + 1 + n = v + (n + 1) := by omega
        have hnext := ih hs₃ (by omega) hlt hg₃ (by rwa [hend])
        rw [hr₃, hend, show (v + 1) * PGSIZE = v * PGSIZE + PGSIZE from Nat.succ_mul v PGSIZE]
          at hnext
        have hview : SameView m T m₃ T₃ := by
          have h₁₂ := (hf₁.trans hf₂).mono (Multiset.le_add_right T.userPages R)
          refine (SameView.of_frame rfl h₁₂).trans (sameView_map hr hperm hleaf hl₃ hf₃ fun i hi => ?_)
          rw [Mem.write_page_self]
          exact Bytes.fill_of_mem ⟨Nat.zero_le i, by omega⟩
        refine hnext.imp ?_
        rintro r₄ m₄ ⟨T₄, hr₄, hs₄, hf₄, hres₄⟩
        exact ⟨T₄, hr₄, hs₄, hf₃'.trans hf₄, hres₄.imp_right fun hok =>
          ⟨hok.1, hok.2.1, hok.2.2.1, hview.trans hok.2.2.2⟩⟩

/-- **`uvmalloc`** either grows the memory from `oldsz` to `newsz`, or it leaves the table without
new pages. -/
lemma Space.uvmalloc {oldsz : ℕ} (h : Space m T R) (newsz : ℕ)
    (hperm : IsFlags (PTE_R ||| PTE_U ||| xperm)) (hold : oldsz ≤ TRAPFRAME)
    (hnone : ∀ u, pagesOf oldsz ≤ u → u < UPAGES → T.leaf u = none)
    (hroom : newsz ≤ TRAPFRAME ∨ ∀ u < pagesOf oldsz, T.leaf u ≠ none) :
    Returns (Xv6.uvmalloc T.root oldsz newsz xperm) (fun r m' => ∃ T' : PageTable,
      T'.root = T.root ∧ Space m' T' R ∧ Frame m m' (T.userPages + R) ∧ SameView m T m' T' ∧
      ((newsz < oldsz ∧ r = oldsz ∧ T'.leaf = T.leaf) ∨
       (oldsz ≤ newsz ∧ r = 0 ∧ T'.leaf = T.leaf) ∨
       (oldsz ≤ newsz ∧ r = newsz ∧ newsz ≤ TRAPFRAME ∧
        Fresh T.leaf T'.leaf (pagesOf oldsz) (pagesOf newsz) (PTE_R ||| PTE_U ||| xperm)))) m := by
  simp only [Returns, Xv6.uvmalloc]
  by_cases hlt : newsz < oldsz
  · rw [wp_ite_pos hlt]
    exact ⟨T, rfl, h, Frame.refl _ _, SameView.refl _ _, Or.inl ⟨hlt, rfl, rfl⟩⟩
  · rw [wp_ite_neg hlt, pgRoundUp_eq hold]
    have hge : oldsz ≤ newsz := by omega
    have hend : pagesOf oldsz + (newsz - pagesOf oldsz * PGSIZE + PGSIZE - 1) / PGSIZE =
        pagesOf newsz := by
      unfold pagesOf PGSIZE
      omega
    have hroom' : pagesOf oldsz + (newsz - pagesOf oldsz * PGSIZE + PGSIZE - 1) / PGSIZE ≤ UPAGES ∨
        ∀ u < pagesOf oldsz, T.leaf u ≠ none := by
      rw [hend]
      exact hroom.imp_left pagesOf_le
    refine (h.uvmallocLoop hperm hnone _ le_rfl (pagesOf_le hold) (Fresh.nil ..) hroom').imp ?_
    rintro r m' ⟨T', hr, hs, hf, hres⟩
    rw [hend] at hres
    have hview : SameView m T m' T' := hres.elim
      (fun hfail => SameView.of_frame hfail.2 (hf.mono (Multiset.le_add_right _ _)))
      fun hok => hok.2.2.2
    refine ⟨T', hr, hs, hf, hview, Or.inr ?_⟩
    refine hres.imp (fun hfail => ⟨hge, hfail⟩) ?_
    rintro ⟨h₁, h₂, h₃, _⟩
    refine ⟨hge, h₁, ?_, h₃⟩
    rw [← UPAGES_mul]
    refine le_trans ?_ (Nat.mul_le_mul_right PGSIZE h₂)
    unfold pagesOf PGSIZE
    omega

/-! ## Looking entries up, and `vmfault` -/

namespace Owns

/-- What `walk` without `alloc` and the entry it finds say about the leaf. -/
lemma lookup (h : Owns m T R) {va : ℕ} (hva : va < MAXVA) :
    Returns (walk T.root va false) (fun r m' => m' = m ∧
      ((r = none ∧ T.leaf (pageOf va) = none) ∨
       ∃ pg, r = some (pg, px 0 va) ∧ T.low (px 2 va) (px 1 va) = some pg ∧
        (m.page pg).get64 (8 * px 0 va) = (T.leaf (pageOf va)).getD 0)) m := by
  refine (h.walk_false hva).imp ?_
  rintro r m' ⟨hr, hm⟩
  refine ⟨hm, ?_⟩
  cases hlow : T.low (px 2 va) (px 1 va) with
  | none =>
    rw [hlow] at hr
    exact Or.inl ⟨hr, leaf_eq_none T hva hlow⟩
  | some pg =>
    rw [hlow] at hr
    exact Or.inr ⟨pg, hr, rfl, h.getPte_low hva hlow⟩

lemma ismapped (h : Owns m T R) {va : ℕ} (hva : va < MAXVA) :
    Returns (Xv6.ismapped T.root va) (fun r m' => r = (T.leaf (pageOf va)).isSome ∧ m' = m) m := by
  simp only [Returns, Xv6.ismapped, wp_bind]
  refine (h.lookup hva).imp ?_
  rintro r m' ⟨hm, hr⟩
  rw [hm]
  rcases hr with ⟨hr, hl⟩ | ⟨pg, hr, _, hent⟩
  · simp [hr, hl]
  · simp only [hr, getPte, wp_bind, wp_get, wp_pure, hent]
    exact ⟨getD_has_V _ fun e => T.leaf_valid _ e, trivial⟩

end Owns

/-- The page that a user may access at `va`, or 0. -/
def PageTable.userAddr (T : PageTable) (va : ℕ) : ℕ :=
  if MAXVA ≤ va then 0
  else match T.leaf (pageOf va) with
    | none => 0
    | some e => if e.has PTE_U then pte2pa e else 0

lemma Owns.walkaddr (h : Owns m T R) (va : ℕ) :
    Returns (Xv6.walkaddr T.root va) (fun r m' => r = T.userAddr va ∧ m' = m) m := by
  simp only [Returns, Xv6.walkaddr, PageTable.userAddr]
  by_cases hva : MAXVA ≤ va
  · rw [wp_ite_pos hva, if_pos hva]
    exact ⟨rfl, rfl⟩
  · rw [wp_ite_neg hva, if_neg hva, wp_bind]
    refine (h.lookup (Nat.lt_of_not_le hva)).imp ?_
    rintro r m' ⟨hm, hr⟩
    rw [hm]
    rcases hr with ⟨hr, hl⟩ | ⟨pg, hr, _, hent⟩
    · simp [hr, hl]
    · simp only [hr, getPte, wp_bind, wp_get, wp_pure, hent]
      cases hl : T.leaf (pageOf va) with
      | none => exact (wp_ite_pos (by simp)).mpr ⟨rfl, rfl⟩
      | some e =>
        have hV := T.leaf_valid _ e hl
        rw [Option.getD_some, wp_ite_neg (by simp [hV])]
        by_cases hU : e.has PTE_U = true
        · rw [wp_ite_neg (by simp [hU])]
          exact ⟨(if_pos hU).symm, rfl⟩
        · rw [wp_ite_pos (by simp [hU])]
          exact ⟨(if_neg hU).symm, rfl⟩

/-- The permissions of a page that `vmfault` maps. -/
def faultPerm : Pte := PTE_W ||| PTE_U ||| PTE_R

/-- **`vmfault`** maps a page of zeros for an address below the size that had none, or does nothing;
if memory has not run out, it does nothing only where there is nothing to do. -/
lemma Space.vmfault (h : Space m T R) {psz : ℕ} (hpsz : psz ≤ TRAPFRAME) (va : ℕ) :
    Returns (Xv6.vmfault T.root psz va) (fun r m' => ∃ T' : PageTable, T'.root = T.root ∧
      Space m' T' R ∧ Frame m m' (T.userPages + R) ∧ SameView m T m' T' ∧
      ((r = 0 ∧ T'.leaf = T.leaf ∧
        (m'.denied = false → psz ≤ va ∨ T.leaf (pageOf va) ≠ none)) ∨
       (va < psz ∧ T.leaf (pageOf va) = none ∧ IsPhys r ∧
        T'.leaf = update T.leaf (pageOf va) (some (leafEntry r faultPerm))))) m := by
  simp only [Returns, Xv6.vmfault]
  by_cases hva : va ≥ psz
  · rw [wp_ite_pos hva]
    exact ⟨T, rfl, h, Frame.refl _ _, SameView.refl _ _, Or.inl ⟨rfl, rfl, fun _ => Or.inl hva⟩⟩
  · have hlt : pageOf va < UPAGES := by
      unfold pageOf UPAGES
      unfold TRAPFRAME TRAMPOLINE MAXVA PGSIZE at *
      omega
    rw [wp_ite_neg hva, wp_bind, show pgRoundDown va = pageOf va * PGSIZE from rfl]
    refine (h.ismapped (mul_lt_maxva hlt)).imp ?_
    rintro r m' ⟨hr, hm⟩
    rw [hr, hm, pageOf_mul]
    by_cases hsome : (T.leaf (pageOf va)).isSome = true
    · rw [wp_ite_pos hsome]
      refine ⟨T, rfl, h, Frame.refl _ _, SameView.refl _ _, Or.inl ⟨rfl, rfl, fun _ => Or.inr ?_⟩⟩
      exact Option.isSome_iff_ne_none.mp hsome
    · have hleaf : T.leaf (pageOf va) = none := by simpa using hsome
      have hle : T.userPages ≤ T.userPages + R := Multiset.le_add_right _ _
      rw [wp_ite_neg hsome, wp_bind]
      refine (h.kalloc.and kalloc_honest).imp ?_
      rintro r m₁ ⟨⟨hf₁, hr⟩, hd₁⟩
      rcases hr with ⟨rfl, hs₁⟩ | ⟨hr, hs₁⟩
      · rw [wp_ite_pos rfl]
        exact ⟨T, rfl, hs₁, hf₁, SameView.of_frame rfl (hf₁.mono hle),
          Or.inl ⟨rfl, rfl, fun hd => absurd rfl (hd₁ hd).2⟩⟩
      · obtain ⟨hs₂, hf₂⟩ := hs₁.write_held ((m₁.page r).fill 0 PGSIZE 0)
        rw [wp_ite_neg hr.pos.ne']
        simp only [memset, wp_bind, wp_modify]
        have hperm : IsFlags faultPerm := by decide
        refine ((hs₂.map hperm hlt hleaf).and mappages_honest).imp ?_
        rintro r₃ m₃ ⟨⟨T₃, hr₃, hf₃, hres⟩, hd₃⟩
        have hf₃' := (hf₁.trans hf₂).trans
          (hf₃.mono (add_le_add le_rfl (Multiset.le_cons_self R r)))
        rcases hres with ⟨rfl, hl₃, hs₃⟩ | ⟨rfl, hl₃, hs₃⟩
        · rw [wp_ite_pos (by decide)]
          simp only [wp_bind]
          refine (hs₃.kfree.and kfree_free).imp ?_
          rintro _ m₄ ⟨⟨hs₄, hf₄⟩, hd₄⟩
          rw [PageTable.userPages, hl₃] at hf₄
          have hf₄' := hf₃'.trans hf₄
          exact ⟨T₃, hr₃, hs₄, hf₄', SameView.of_frame hl₃ (hf₄'.mono hle),
            Or.inl ⟨rfl, hl₃, fun hd => absurd (hd₃ (hd₄ hd).1).2 (by decide)⟩⟩
        · rw [wp_ite_neg (by decide)]
          refine ⟨T₃, hr₃, hs₃, hf₃', ?_, Or.inr ⟨Nat.lt_of_not_le hva, hleaf, hr, hl₃⟩⟩
          refine (SameView.of_frame rfl ((hf₁.trans hf₂).mono hle)).trans
            (sameView_map hr hperm hleaf hl₃ hf₃ fun i hi => ?_)
          rw [Mem.write_page_self]
          exact Bytes.fill_of_mem ⟨Nat.zero_le i, by omega⟩

/-! ## `uvmclear` and `uvmfree` -/

/-- `uvmclear` takes the user's access from a page that is mapped. -/
lemma Space.uvmclear {e : Pte} (h : Space m T R) (hv : v < UPAGES) (hleaf : T.leaf v = some e)
    (hpa : pte2pa (e &&& ~~~PTE_U) = pte2pa e) :
    Returns (Xv6.uvmclear T.root (v * PGSIZE)) (fun _ m' => ∃ T' : PageTable, T'.root = T.root ∧
      Space m' T' R ∧ Frame m m' (T.userPages + R) ∧
      T'.leaf = update T.leaf v (some (e &&& ~~~PTE_U))) m := by
  have hva := mul_lt_maxva hv
  simp only [Returns, Xv6.uvmclear, wp_bind]
  refine (h.lookup hva).imp ?_
  rintro r m' ⟨hm, hr⟩
  rw [hm]
  rw [pageOf_mul, hleaf] at hr
  rcases hr with ⟨_, hl⟩ | ⟨pg, hr, hlow, hent⟩
  · exact absurd hl (by simp)
  · rw [hr]
    simp only [getPte, setPte, wp_bind, wp_get, wp_pure, wp_modify, hent, Option.getD_some]
    have hV : ∀ e', some (e &&& ~~~PTE_U) = some e' → Pte.has e' PTE_V = true := by
      rintro e' he
      obtain rfl := Option.some.inj he
      have hV := T.leaf_valid _ e hleaf
      unfold Pte.has at hV ⊢
      rwa [BitVec.and_assoc, show ~~~PTE_U &&& PTE_V = PTE_V by decide]
    obtain ⟨T', hr', hl', ho', hf'⟩ := Owns.setPte_low h hva hlow hV
    rw [pageOf_mul] at hl'
    refine ⟨T', PageTable.root_eq hr', ?_, hf', hl'⟩
    have hpages := leafPages_update (f := T.leaf) (Nat.zero_le v) hv (some (e &&& ~~~PTE_U))
    rw [hleaf, Option.map_some, Option.map_some, hpa] at hpages
    have hpages' : T'.userPages = T.userPages := by
      rw [PageTable.userPages, hl']
      exact add_right_cancel hpages
    rw [Space, hpages']
    exact ho'

/-- `uvmfree` gives all the pages of the table and of the user back. -/
lemma Space.uvmfree {sz : ℕ} (h : Space m T R) (hsz : sz ≤ TRAPFRAME)
    (hleaf : ∀ v, T.leaf v ≠ none → v < pagesOf sz) :
    Returns (Xv6.uvmfree T.root sz) (fun _ m' => m'.Used R ∧ Frame m m' R) m := by
  simp only [Returns, Xv6.uvmfree]
  have hfree : ∀ {m₁ : Mem} {T₁ : PageTable}, Space m₁ T₁ R → (∀ v, T₁.leaf v = none) →
      Frame m m₁ R → wp (Xv6.freewalk 3 T₁.root) (fun _ m' => m'.Used R ∧ Frame m m' R)
        (fun _ => False) m₁ := by
    intro m₁ T₁ h₁ hl hf
    have hpages : T₁.userPages = 0 := leafPages_eq_zero fun v _ _ => hl v
    rw [Space, hpages, zero_add] at h₁
    refine (h₁.freewalk hl).imp ?_
    rintro _ m₂ ⟨hu, hf₂⟩
    exact ⟨hu, hf.trans hf₂⟩
  by_cases hpos : sz > 0
  · rw [if_pos hpos, pgRoundUp_eq hsz, Nat.mul_div_cancel _ (by decide), wp_bind]
    have hun := h.uvmunmap (v := 0) (n := pagesOf sz) (by simpa using pagesOf_le hsz)
    rw [Nat.zero_mul] at hun
    refine hun.imp ?_
    rintro _ m₁ ⟨T₁, hr₁, hl₁, hs₁, hf₁⟩
    rw [← PageTable.root_eq hr₁]
    refine hfree hs₁ (fun v => ?_) (hf₁.mono (Multiset.le_add_left _ _))
    by_contra hne
    rw [hl₁, clearLeaves] at hne
    split at hne
    · exact hne rfl
    · exact absurd (hleaf v hne) (by omega)
  · rw [if_neg hpos]
    refine hfree h (fun v => ?_) (Frame.refl _ _)
    by_contra hne
    have := hleaf v hne
    simp [pagesOf, show sz = 0 by omega, PGSIZE] at this

end Xv6
