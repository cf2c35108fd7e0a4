import Xv6.Vm.Grow

/-!
# Copying

`uvmcopy` copies user memory from table to table, and `copyout`, `copyin` and `copyinstr` copy
between user memory and the kernel; the latter may map pages on the way, through `vmfault`.
-/

namespace Xv6

open Finset Function

variable [Layout] {m m' : Mem} {T T₀ : PageTable} {R : Multiset ℕ}

/-! ## `uvmcopy` -/

omit [Layout] in
lemma isFlags_pteFlags (e : Pte) : IsFlags (pteFlags e) := by
  unfold IsFlags pteFlags
  rw [BitVec.toNat_and]
  exact lt_of_le_of_lt Nat.and_le_right (by decide)

/-- The leaves `g` are `g₀` with copies of those that `f` has for the pages below `v`. -/
structure Copied (f g₀ g : ℕ → Option Pte) (v : ℕ) : Prop where
  outside : ∀ u, v ≤ u → g u = g₀ u
  none : ∀ u < v, f u = none → g u = g₀ u
  some : ∀ u < v, ∀ e, f u = some e → ∃ pa, IsPhys pa ∧ g u = some (leafEntry pa (pteFlags e))

lemma Copied.zero (f g : ℕ → Option Pte) : Copied f g g 0 where
  outside _ _ := rfl
  none _ h := by omega
  some _ h := by omega

variable {f g₀ g : ℕ → Option Pte} {v psz d : ℕ} {e : Pte}

lemma Copied.skip (h : Copied f g₀ g v) (hv : f v = Option.none) :
    Copied f g₀ g (v + 1) where
  outside u hu := h.outside u (by omega)
  none u hu hn := by
    by_cases huv : u = v
    · exact h.outside u huv.ge
    · exact h.none u (by omega) hn
  some u hu e he := by
    by_cases huv : u = v
    · rw [huv, hv] at he
      exact absurd he (by simp)
    · exact h.some u (by omega) e he

lemma Copied.snoc {p : ℕ} (h : Copied f g₀ g v) (hv : f v = Option.some e) (hp : IsPhys p) :
    Copied f g₀ (update g v (Option.some (leafEntry p (pteFlags e)))) (v + 1) where
  outside u hu := by rw [update_of_ne (by omega), h.outside u (by omega)]
  none u hu hn := by
    have huv : u ≠ v := fun heq => by simp [heq, hv] at hn
    rw [update_of_ne huv, h.none u (by omega) hn]
  some u hu e' he := by
    by_cases huv : u = v
    · obtain rfl : e = e' := Option.some.inj (by rw [← hv, ← he, huv])
      exact ⟨p, hp, by rw [huv, update_self]⟩
    · rw [update_of_ne huv]
      exact h.some u (by omega) e' he

/-- Undoing a copy into a table that had no user pages. -/
lemma Copied.clear (h : Copied f g₀ g v)
    (hg : ∀ u < v, g₀ u = Option.none) : clearLeaves g 0 v = g₀ := by
  funext u
  unfold clearLeaves
  by_cases hu : u < v
  · rw [if_pos (by omega), hg u hu]
  · rw [if_neg (by omega), h.outside u (by omega)]

/-- Another table in the same memory. -/
lemma Owns.other (h : Owns m T (T₀.tablePages + R)) (h₀ : T₀.Repr m.page) :
    Owns m T₀ (T.tablePages + R) :=
  ⟨h₀, by rw [add_left_comm]; exact h.used⟩

lemma PageTable.Repr.frame (h₀ : T₀.Repr m.page) (hf : Frame m m' R) (hle : T₀.tablePages ≤ R) :
    T₀.Repr m'.page := h₀.congr fun pg hpg => hf.on pg (Multiset.mem_of_le hle hpg)

/-- In the pages below `v` the user of `T` sees what the user of `T₀` sees. -/
def SamePages (page : ℕ → Bytes) (T₀ T : PageTable) (v : ℕ) : Prop :=
  ∀ u < v, ∀ i < PGSIZE, T.view page u i = T₀.view page u i

section SamePages

variable {v : ℕ}

lemma SamePages.frame (h : SamePages m.page T₀ T v) (hv : v ≤ UPAGES)
    (hf : Frame m m' T.userPages) (hf₀ : Frame m m' T₀.userPages) : SamePages m'.page T₀ T v := by
  intro u hu i hi
  rw [PageTable.view_frame hf (by omega), PageTable.view_frame hf₀ (by omega)]
  exact h u hu i hi

omit [Layout] in
/-- One more page. -/
lemma SamePages.snoc {page : ℕ → Bytes} {T' : PageTable} (h : SamePages page T₀ T v)
    (hl : ∀ u < v, T'.leaf u = T.leaf u) (hv : ∀ i < PGSIZE, T'.view page v i = T₀.view page v i) :
    SamePages page T₀ T' (v + 1) := by
  intro u hu i hi
  by_cases huv : u = v
  · rw [huv]
    exact hv i hi
  · rw [PageTable.view_congr (hl u (by omega))]
    exact h u (by omega) i hi

end SamePages

lemma Space.uvmcopyLoop (hg₀ : ∀ u < UPAGES, g₀ u = none)
    (hR : T₀.userPages ≤ R) (n : ℕ) {m : Mem} {T : PageTable}
    (h : Space m T (T₀.tablePages + R)) (h₀ : T₀.Repr m.page) (hv : v + n ≤ UPAGES)
    (hc : Copied T₀.leaf g₀ T.leaf v) (hsame : SamePages m.page T₀ T v) :
    Returns (Xv6.uvmcopyLoop T₀.root T.root n (v * PGSIZE)) (fun r m' => ∃ T' : PageTable,
      T'.root = T.root ∧ Space m' T' (T₀.tablePages + R) ∧ Frame m m' (T₀.tablePages + R) ∧
      ((r = none ∧ Copied T₀.leaf g₀ T'.leaf (v + n) ∧ SamePages m'.page T₀ T' (v + n)) ∨
       ∃ u ≤ UPAGES, r = some (u * PGSIZE) ∧ Copied T₀.leaf g₀ T'.leaf u)) m := by
  induction n generalizing m T v with
  | zero => exact ⟨T, rfl, h, Frame.refl _ _, Or.inl ⟨rfl, hc, hsame⟩⟩
  | succ n ih =>
    have hlt : v < UPAGES := by omega
    have hend : v + 1 + n = v + (n + 1) := by omega
    have hsucc : (v + 1) * PGSIZE = v * PGSIZE + PGSIZE := Nat.succ_mul v PGSIZE
    have hleaf : T.leaf v = none := by rw [hc.outside v le_rfl, hg₀ v hlt]
    simp only [Returns, Xv6.uvmcopyLoop, wp_bind]
    have hother : Owns m T₀ (T.tablePages + (T.userPages + R)) := by
      refine Owns.other ?_ h₀
      rw [add_left_comm]
      exact h
    -- Going on after a page that the old table does not have.
    have hskip : T₀.leaf v = none → wp (Xv6.uvmcopyLoop T₀.root T.root n (v * PGSIZE + PGSIZE))
        (fun r m' => ∃ T' : PageTable,
          T'.root = T.root ∧ Space m' T' (T₀.tablePages + R) ∧ Frame m m' (T₀.tablePages + R) ∧
          ((r = none ∧ Copied T₀.leaf g₀ T'.leaf (v + (n + 1)) ∧
            SamePages m'.page T₀ T' (v + (n + 1))) ∨
           ∃ u ≤ UPAGES, r = some (u * PGSIZE) ∧ Copied T₀.leaf g₀ T'.leaf u))
        (fun _ => False) m := by
      intro hl
      have hnext := ih h h₀ (by omega) (hc.skip hl) (hsame.snoc (fun _ _ => rfl) fun i _ => by
        rw [PageTable.view_of_none hl, PageTable.view_of_none hleaf])
      rwa [hend, hsucc] at hnext
    refine (hother.lookup (mul_lt_maxva hlt)).imp ?_
    rintro r m' ⟨hm, hr⟩
    rw [hm]
    rw [pageOf_mul] at hr
    rcases hr with ⟨hr, hl⟩ | ⟨pg, hr, _, hent⟩
    · rw [hr]
      exact hskip hl
    · rw [hr]
      simp only [getPte, wp_bind, wp_get, wp_pure, hent]
      cases hl : T₀.leaf v with
      | none => exact (wp_ite_pos (by simp)).mpr (hskip hl)
      | some e =>
        have hV := T₀.leaf_valid _ e hl
        rw [Option.getD_some, wp_ite_neg (by simp [hV])]
        simp only [wp_bind]
        refine h.kalloc.imp ?_
        rintro r m₁ ⟨hf₁, hr⟩
        have hle : T₀.tablePages + R ≤ T.userPages + (T₀.tablePages + R) := Multiset.le_add_left _ _
        rcases hr with ⟨rfl, hs₁⟩ | ⟨hr, hs₁⟩
        · rw [wp_ite_pos rfl]
          exact ⟨T, rfl, hs₁, hf₁.mono hle, Or.inr ⟨v, hlt.le, rfl, hc⟩⟩
        · rw [wp_ite_neg hr.pos.ne']
          obtain ⟨hs₂, hf₂⟩ := hs₁.write_held ((m₁.page r).blit 0 (m₁.page (pte2pa e)) 0 PGSIZE)
          simp only [wp_bind, wp_modify]
          refine (hs₂.map (isFlags_pteFlags e) hlt hleaf).imp ?_
          rintro r₃ m₃ ⟨T₃, hr₃, hf₃, hres⟩
          have hf₃' := (hf₁.trans hf₂).trans (hf₃.mono
            (add_le_add le_rfl (Multiset.le_cons_self _ r)))
          rcases hres with ⟨rfl, hl₃, hs₃⟩ | ⟨rfl, hl₃, hs₃⟩
          · rw [wp_ite_pos (by decide)]
            simp only [wp_bind]
            refine hs₃.kfree.imp ?_
            rintro _ m₄ ⟨hs₄, hf₄⟩
            refine ⟨T₃, hr₃, hs₄, (hf₃'.mono hle).trans (hf₄.mono (Multiset.le_add_left _ _)),
              Or.inr ⟨v, hlt.le, rfl, ?_⟩⟩
            rw [hl₃]
            exact hc
          · rw [wp_ite_neg (by decide)]
            have hc₃ : Copied T₀.leaf g₀ T₃.leaf (v + 1) := by
              rw [hl₃]
              exact hc.snoc hl hr
            have hR' : T₀.userPages ≤ T.userPages + (T₀.tablePages + R) :=
              (hR.trans (Multiset.le_add_left _ _)).trans hle
            -- The new page has been filled from the old one, and is still as it was then.
            have hcopy : ∀ i < PGSIZE, T₃.view m₃.page v i = T₀.view m₃.page v i := by
              intro i hi
              have hold : pte2pa e ∈ T₀.userPages :=
                mem_leafPages.mpr ⟨v, Nat.zero_le v, hlt, e, hl, rfl⟩
              rw [PageTable.view_of_some hl, PageTable.view_of_some (by rw [hl₃, update_self]),
                pte2pa_leafEntry hr (isFlags_pteFlags e), hf₃.on r (by simp),
                hf₃'.on _ (Multiset.mem_of_le hR' hold), Mem.write_page_self,
                Bytes.blit_of_mem (by omega), hf₁.on _ (Multiset.mem_of_le hR' hold),
                Nat.zero_add, Nat.sub_zero]
            have hsame₃ := (hsame.frame hlt.le (hf₃'.mono (Multiset.le_add_right _ _))
              (hf₃'.mono hR')).snoc (fun u hu => by
                rw [hl₃, update_of_ne (by omega)]) hcopy
            have hnext := ih hs₃ (h₀.frame (hf₃'.mono hle) (Multiset.le_add_right _ _)) (by omega)
              hc₃ hsame₃
            rw [hr₃, hend, hsucc] at hnext
            refine hnext.imp ?_
            rintro r₄ m₄ ⟨T₄, hr₄, hs₄, hf₄, hres₄⟩
            exact ⟨T₄, hr₄, hs₄, (hf₃'.mono hle).trans hf₄, hres₄⟩

/-- **`uvmcopy`** copies the pages below `sz` into a table without user pages, or leaves that table
without user pages. -/
lemma Space.uvmcopy {sz : ℕ} (h : Space m T (T₀.tablePages + R)) (h₀ : T₀.Repr m.page)
    (hR : T₀.userPages ≤ R) (hempty : ∀ u < UPAGES, T.leaf u = none) (hsz : sz ≤ TRAPFRAME) :
    Returns (Xv6.uvmcopy T₀.root T.root sz) (fun r m' => ∃ T' : PageTable,
      T'.root = T.root ∧ Space m' T' (T₀.tablePages + R) ∧ Frame m m' (T₀.tablePages + R) ∧
      ((r = -1 ∧ T'.leaf = T.leaf) ∨
       (r = 0 ∧ Copied T₀.leaf T.leaf T'.leaf (pagesOf sz) ∧
        SamePages m'.page T₀ T' (pagesOf sz)))) m := by
  have hloop := h.uvmcopyLoop hempty hR (pagesOf sz) (v := 0) h₀ (by simpa using pagesOf_le hsz)
    (Copied.zero _ _) (fun u hu => by omega)
  rw [Nat.zero_mul, Nat.zero_add] at hloop
  simp only [Returns, Xv6.uvmcopy, wp_bind]
  refine hloop.imp ?_
  rintro r m₁ ⟨T₁, hr₁, hs₁, hf₁, hres⟩
  rcases hres with ⟨rfl, hc⟩ | ⟨u, hu, rfl, hc⟩
  · exact ⟨T₁, hr₁, hs₁, hf₁, Or.inr ⟨rfl, hc⟩⟩
  · simp only [wp_bind, Nat.mul_div_cancel u (show 0 < PGSIZE by decide)]
    have hun := hs₁.uvmunmap (v := 0) (n := u) (by omega)
    rw [Nat.zero_mul, hr₁] at hun
    refine hun.imp ?_
    rintro _ m₂ ⟨T₂, hr₂, hl₂, hs₂, hf₂⟩
    refine ⟨T₂, (PageTable.root_eq hr₂).trans hr₁, hs₂,
      hf₁.trans (hf₂.mono (Multiset.le_add_left _ _)), Or.inl ⟨rfl, ?_⟩⟩
    rw [hl₂]
    exact hc.clear fun w hw => hempty w (by omega)

/-! ## `copyout`, `copyin` and `copyinstr` -/

/-- The leaves `g` are `f`, with pages that `vmfault` mapped for addresses below `psz` in the pages
from `a` up to `b`. -/
def Faulted (f g : ℕ → Option Pte) (psz a b : ℕ) : Prop :=
  ∀ v, g v = f v ∨ f v = none ∧ a ≤ v ∧ v < b ∧ v * PGSIZE < psz ∧
    ∃ pa, IsPhys pa ∧ g v = some (leafEntry pa faultPerm)

omit [Layout] in
lemma lt_UPAGES_of_mul_lt (h : v * PGSIZE < psz) (hpsz : psz ≤ TRAPFRAME) :
    v < UPAGES := by
  unfold UPAGES
  unfold TRAPFRAME TRAMPOLINE MAXVA PGSIZE at *
  omega

section Faulted

variable {f g k : ℕ → Option Pte} {psz a b a' b' : ℕ}

lemma Faulted.refl : Faulted f f psz a b := fun _ => Or.inl rfl

/-- The pages below the size are among the user pages. -/
lemma Faulted.mono_size (h : Faulted f g psz a b) (hpsz : psz ≤ TRAPFRAME) :
    Faulted f g psz 0 UPAGES :=
  fun v => (h v).imp_right fun ⟨h₁, _, _, h₄, h₅⟩ =>
    ⟨h₁, Nat.zero_le v, lt_UPAGES_of_mul_lt h₄ hpsz, h₄, h₅⟩

lemma Faulted.trans (h : Faulted f g psz a b) (h' : Faulted g k psz a b) :
    Faulted f k psz a b := by
  intro v
  rcases h v with hv | ⟨h₁, h₂, h₃, h₄, pa, hpa, hv⟩
  · rcases h' v with hv' | ⟨h₁', hrest⟩
    · exact Or.inl (hv'.trans hv)
    · exact Or.inr ⟨hv ▸ h₁', hrest⟩
  · rcases h' v with hv' | ⟨h₁', hrest⟩
    · exact Or.inr ⟨h₁, h₂, h₃, h₄, pa, hpa, hv'.trans hv⟩
    · exact absurd (hv.symm.trans h₁') (by simp)

lemma Faulted.update {v p : ℕ} (hv : f v = none) (hlt : v * PGSIZE < psz) (hp : IsPhys p) :
    Faulted f (update f v (some (leafEntry p faultPerm))) psz v (v + 1) := by
  intro u
  by_cases huv : u = v
  · subst huv
    exact Or.inr ⟨hv, le_rfl, Nat.lt_succ_self u, hlt, p, hp, update_self ..⟩
  · exact Or.inl (update_of_ne huv ..)

end Faulted

/-- The pages above user memory are not for the user. -/
def PageTable.NoUser (T : PageTable) : Prop :=
  ∀ v e, UPAGES ≤ v → T.leaf v = some e → e.has PTE_U = false

lemma PageTable.NoUser.faulted {T' : PageTable} {a b : ℕ} (h : T.NoUser)
    (hpsz : psz ≤ TRAPFRAME) (hf : Faulted T.leaf T'.leaf psz a b) : T'.NoUser := by
  intro v e hv he
  rcases hf v with heq | ⟨_, _, _, hlt, _⟩
  · exact h v e hv (heq ▸ he)
  · exact absurd (lt_UPAGES_of_mul_lt hlt hpsz) (by omega)

/-! Copying goes page by page: `d` is where the next chunk of `len` bytes starts. -/

omit [Layout] in
lemma pgRoundDown_bounds (d : ℕ) : pgRoundDown d ≤ d ∧ d < pgRoundDown d + PGSIZE :=
  ⟨Nat.div_mul_le_self d PGSIZE, Nat.lt_div_mul_add (by decide)⟩

omit [Layout] in
/-- The bytes of a chunk are in the page of the first one. -/
lemma chunk_addr {n j : ℕ} (hj : j < n) (hn : n ≤ PGSIZE - (d - pgRoundDown d)) :
    pageOf (d + j) = pageOf d ∧ (d + j) % PGSIZE = d - pgRoundDown d + j := by
  unfold pageOf pgRoundDown PGSIZE at *
  omega

omit [Layout] in
lemma chunk_fuel {len fuel : ℕ} (hfuel : len ≤ fuel + 1) :
    len - min (PGSIZE - (d - pgRoundDown d)) len ≤ fuel := by
  obtain ⟨hle, hlt⟩ := pgRoundDown_bounds d
  omega

/-! ### The pages that may be copied to and from -/

/-- `copyin` can read the page `v`: the user may access it, or `vmfault` will map it. -/
def PageTable.Readable (T : PageTable) (psz v : ℕ) : Prop :=
  v * PGSIZE < MAXVA ∧ match T.leaf v with
    | none => v * PGSIZE < psz
    | some e => e.has PTE_U = true

/-- `copyout` can write to the page `v`. -/
def PageTable.Writable (T : PageTable) (psz v : ℕ) : Prop :=
  T.Readable psz v ∧ ∀ e, T.leaf v = some e → e.has PTE_W = true

section Readable

variable {T' : PageTable} {psz a b v : ℕ} {e : Pte}

omit [Layout] in
lemma PageTable.readable_of_some (h : T.leaf v = some e) :
    T.Readable psz v ↔ v * PGSIZE < MAXVA ∧ e.has PTE_U = true := by rw [Readable, h]

omit [Layout] in
lemma PageTable.readable_of_none (h : T.leaf v = none) :
    T.Readable psz v ↔ v * PGSIZE < MAXVA ∧ v * PGSIZE < psz := by rw [Readable, h]

omit [Layout] in
lemma leafEntry_faultPerm (pa : ℕ) : (leafEntry pa faultPerm).has PTE_U = true ∧
    (leafEntry pa faultPerm).has PTE_W = true := by
  rw [leafEntry_has (by decide), leafEntry_has (by decide)]
  decide

lemma Faulted.userPages_le (h : Faulted T.leaf T'.leaf psz a b) : T.userPages ≤ T'.userPages :=
  leafPages_mono fun v _ _ => (h v).symm.imp (·.1) Eq.symm

omit [Layout] in
/-- Only user pages can be read. -/
lemma PageTable.Readable.lt_UPAGES (h : T.Readable psz v) (hpsz : psz ≤ TRAPFRAME)
    (hU : T.NoUser) : v < UPAGES := by
  cases hl : T.leaf v with
  | none => exact lt_UPAGES_of_mul_lt ((readable_of_none hl).mp h).2 hpsz
  | some e =>
    by_contra hge
    have hhas := ((readable_of_some hl).mp h).2
    simp [hU v e (by omega) hl] at hhas

/-- Mapping pages on the way makes no page readable or writable that was not. -/
lemma Faulted.readable (h : Faulted T.leaf T'.leaf psz a b) :
    T'.Readable psz v ↔ T.Readable psz v := by
  rcases h v with heq | ⟨hnone, _, _, hlt, pa, _, hsome⟩
  · rw [PageTable.Readable, heq, PageTable.Readable]
  · rw [PageTable.readable_of_some hsome, PageTable.readable_of_none hnone]
    exact and_congr_right fun _ => iff_of_true (leafEntry_faultPerm pa).1 hlt

lemma Faulted.writable (h : Faulted T.leaf T'.leaf psz a b) :
    T'.Writable psz v ↔ T.Writable psz v := by
  refine and_congr h.readable ?_
  rcases h v with heq | ⟨hnone, _, _, hlt, pa, _, hsome⟩
  · rw [heq]
  · rw [hnone, hsome]
    refine iff_of_true (fun e he => ?_) nofun
    obtain rfl := Option.some.inj he
    exact (leafEntry_faultPerm pa).2

end Readable

/-! ### What is copied -/

/-- The `k` bytes of `src` from `so` on are at the user address `d`, and the user sees no other
change. -/
def Stored (m : Mem) (T : PageTable) (m' : Mem) (T' : PageTable) (d : ℕ) (src : Bytes) (so k : ℕ) :
    Prop :=
  ∀ v < UPAGES, ∀ i < PGSIZE, T'.view m'.page v i =
    if d ≤ v * PGSIZE + i ∧ v * PGSIZE + i < d + k then src (so + (v * PGSIZE + i - d))
    else T.view m.page v i

section Stored

variable {m'' : Mem} {T' T'' : PageTable} {src : Bytes} {d d' so k n : ℕ}

omit [Layout] in
lemma SameView.stored (h : SameView m T m' T') :
    Stored m T m' T' d src so 0 := fun v hv i hi => by
  rw [if_neg (by omega)]
  exact h v hv i hi

omit [Layout] in
lemma SameView.trans_stored (h : SameView m T m' T') (h' : Stored m' T' m'' T'' d src so k) :
    Stored m T m'' T'' d src so k := fun v hv i hi => by
  rw [h' v hv i hi, h v hv i hi]

omit [Layout] in
/-- Two chunks one after the other; the second may be empty. -/
lemma Stored.append (h : Stored m T m' T' d src so n) (h' : Stored m' T' m'' T'' d' src (so + n) k)
    (hd : k = 0 ∨ d' = d + n) : Stored m T m'' T'' d src so (n + k) := by
  intro v hv i hi
  rw [h' v hv i hi, h v hv i hi]
  by_cases h₂ : d' ≤ v * PGSIZE + i ∧ v * PGSIZE + i < d' + k
  · rw [if_pos h₂, if_pos (by omega)]
    congr 1
    omega
  · rw [if_neg h₂]
    by_cases h₁ : d ≤ v * PGSIZE + i ∧ v * PGSIZE + i < d + n
    · rw [if_pos h₁, if_pos (by omega)]
    · rw [if_neg h₁, if_neg (by omega)]

variable {v : ℕ} {e : Pte}

/-- No page is mapped twice. -/
lemma Space.leaf_inj {u : ℕ} {e' : Pte} (h : Space m T R) (hu : u < UPAGES) (hv : v < UPAGES)
    (he : T.leaf u = some e) (he' : T.leaf v = some e') (heq : pte2pa e = pte2pa e') : u = v := by
  have hnd : (gather (Ico 0 UPAGES) fun v => (T.leaf v).map pte2pa).Nodup :=
    (Multiset.nodup_add.mp (Multiset.nodup_add.mp h.used.nodup).2.1).1
  exact gather_inj (a := pte2pa e) hnd (mem_Ico.mpr ⟨Nat.zero_le u, hu⟩)
    (mem_Ico.mpr ⟨Nat.zero_le v, hv⟩) (by rw [he]; rfl) (by rw [he', heq]; rfl)

omit [Layout] in
lemma Space.mem_userPages (hv : v < UPAGES) (he : T.leaf v = some e) :
    pte2pa e ∈ T.userPages := mem_leafPages.mpr ⟨v, Nat.zero_le v, hv, e, he, rfl⟩

lemma Space.isPhys_leaf (h : Space m T R) (hv : v < UPAGES)
    (he : T.leaf v = some e) : IsPhys (pte2pa e) :=
  h.used.isPhys (Multiset.mem_add.mpr (Or.inr
    (Multiset.mem_add.mpr (Or.inl (Space.mem_userPages hv he)))))

/-- A user page may be written. -/
lemma Space.write_user (h : Space m T R) (hv : v < UPAGES) (he : T.leaf v = some e) (b : Bytes) :
    Space (m.write (pte2pa e) b) T R ∧ Frame m (m.write (pte2pa e) b) R := by
  have hmem := Space.mem_userPages hv he
  have hnot : pte2pa e ∉ R := fun hR => Multiset.disjoint_left.mp
    (Multiset.nodup_add.mp (Multiset.nodup_add.mp h.used.nodup).2.1).2.2 hmem hR
  exact ⟨h.write (Multiset.mem_add.mpr (Or.inl hmem)) b, .write (h.isPhys_leaf hv he) hnot b⟩

/-- A store into the page of the address `d`. -/
lemma Space.stored_write (src : Bytes) (so : ℕ) (h : Space m T R) (hv : pageOf d < UPAGES)
    (he : T.leaf (pageOf d) = some e) (hn : n ≤ PGSIZE - (d - pgRoundDown d)) :
    Stored m T (m.write (pte2pa e) ((m.page (pte2pa e)).blit (d - pgRoundDown d) src so n)) T d src
      so n := by
  obtain ⟨hle, hlt⟩ := pgRoundDown_bounds d
  intro u hu i hi
  by_cases huv : u = pageOf d
  · subst huv
    have hdown : pageOf d * PGSIZE = pgRoundDown d := rfl
    rw [PageTable.view_of_some he, PageTable.view_of_some he, Mem.write_page_self, hdown]
    by_cases hin : d ≤ pgRoundDown d + i ∧ pgRoundDown d + i < d + n
    · rw [if_pos hin, Bytes.blit_of_mem (by omega)]
      congr 1
      omega
    · rw [if_neg hin, Bytes.blit_of_notMem (by omega)]
  · have hout : ¬(d ≤ u * PGSIZE + i ∧ u * PGSIZE + i < d + n) := by
      intro hin
      have hpage : (u * PGSIZE + i) / PGSIZE = u := by
        rw [Nat.add_comm, Nat.add_mul_div_right _ _ (by decide), Nat.div_eq_of_lt hi, Nat.zero_add]
      have h₁ : pageOf d ≤ u := hpage ▸ Nat.div_le_div_right hin.1
      have h₂ : u * PGSIZE < pgRoundDown d + PGSIZE := by omega
      rw [pgRoundDown, ← Nat.succ_mul] at h₂
      have h₃ : u < pageOf d + 1 := Nat.lt_of_mul_lt_mul_right h₂
      omega
    rw [if_neg hout]
    cases hu' : T.leaf u with
    | none => rw [PageTable.view_of_none hu', PageTable.view_of_none hu']
    | some e' =>
      rw [PageTable.view_of_some hu', PageTable.view_of_some hu', Mem.write_page_of_ne]
      exact fun heq => huv (h.leaf_inj hu hv hu' he heq)

end Stored

/-- There was no memory for the page `v`, which is not in the table. -/
def Lacks (T : PageTable) (m' : Mem) (v : ℕ) : Prop := m'.denied = true ∧ T.leaf v = none

/-- The pages that are in the table. -/
abbrev PageTable.Mapped (T : PageTable) (v : ℕ) : Prop := T.leaf v ≠ none

/-- Memory ran out when the page `v` was needed: there was none, and there is none. -/
def RanOut (T : PageTable) (m' : Mem) (T' : PageTable) (v : ℕ) : Prop := Lacks T m' v ∧ ¬T'.Mapped v

omit [Layout] in
lemma PageTable.Mapped.of_some (h : T.leaf v = some e) : T.Mapped v := by
  rw [Mapped, h]
  nofun

section

variable {T' : PageTable} {psz a b v : ℕ}

lemma Faulted.mapped (h : Faulted T.leaf T'.leaf psz a b) (hv : T.Mapped v) : T'.Mapped v := by
  rcases h v with heq | ⟨hnone, -⟩
  · exact fun hnone => hv (heq ▸ hnone)
  · exact absurd hnone hv

lemma Faulted.lacks (h : Faulted T.leaf T'.leaf psz a b) (hv : Lacks T' m v) : Lacks T m v :=
  ⟨hv.1, by_contra fun hne => h.mapped hne hv.2⟩

end

/-- How far a copy of `len` bytes from or to the address `d` gets: `k` bytes, in pages that `P` allows
and that are mapped then (`Q`).  If that is not all, then `P` excludes the page of the next one, or
memory has run out for it (`L`). -/
structure Reaches (P Q L : ℕ → Prop) (d len : ℕ) (done : Prop) (k : ℕ) : Prop where
  le : k ≤ len
  ok : ∀ j < k, P (pageOf (d + j))
  mapped : ∀ j < k, Q (pageOf (d + j))
  all : done → k = len
  stop : ¬done → k < len ∧ (P (pageOf (d + k)) → L (pageOf (d + k)))

section Reaches

variable {P Q L : ℕ → Prop} {d len k : ℕ} {done : Prop}

omit [Layout] in
lemma Reaches.none (h0 : len ≠ 0) (hdone : ¬done) (hstop : P (pageOf d) → L (pageOf d)) :
    Reaches P Q L d len done 0 where
  le := Nat.zero_le _
  ok _ h := absurd h (Nat.not_lt_zero _)
  mapped _ h := absurd h (Nat.not_lt_zero _)
  all h := absurd h hdone
  stop _ := ⟨Nat.pos_of_ne_zero h0, hstop⟩

omit [Layout] in
lemma Reaches.nil (hdone : done) : Reaches P Q L d 0 done 0 where
  le := le_rfl
  ok _ h := absurd h (Nat.not_lt_zero _)
  mapped _ h := absurd h (Nat.not_lt_zero _)
  all _ := rfl
  stop h := absurd hdone h

omit [Layout] in
lemma Reaches.congr {P' L' : ℕ → Prop} (h : Reaches P Q L d len done k) (hP : ∀ v, P v ↔ P' v)
    (hL : ∀ v, L v → L' v) : Reaches P' Q L' d len done k := by
  obtain rfl : P = P' := funext fun v => propext (hP v)
  exact { h with stop := fun hd => ⟨(h.stop hd).1, fun hP => hL _ ((h.stop hd).2 hP)⟩ }

omit [Layout] in
/-- After a chunk in one page the copy goes on at the next page. -/
lemma Reaches.chunk (hok : P (pageOf d)) (hmapped : Q (pageOf d))
    (h : Reaches P Q L (pgRoundDown d + PGSIZE)
      (len - min (PGSIZE - (d - pgRoundDown d)) len) done k) :
    (k = 0 ∨ pgRoundDown d + PGSIZE = d + min (PGSIZE - (d - pgRoundDown d)) len) ∧
    Reaches P Q L d len done (min (PGSIZE - (d - pgRoundDown d)) len + k) := by
  obtain ⟨h₁, h₂⟩ := pgRoundDown_bounds d
  have hle := h.le
  set n := min (PGSIZE - (d - pgRoundDown d)) len with hn
  have hcase : k = 0 ∨ pgRoundDown d + PGSIZE = d + n := by omega
  -- A byte is in the page of `d`, or it is one of the next pages.
  have hpage : ∀ j < n + k, pageOf (d + j) = pageOf d ∨
      ∃ i < k, pgRoundDown d + PGSIZE + i = d + j := by
    intro j hj
    by_cases hjn : j < n
    · exact Or.inl (chunk_addr hjn (by omega)).1
    · exact Or.inr ⟨j - n, by omega, by omega⟩
  refine ⟨hcase, ⟨by omega, fun j hj => ?_, fun j hj => ?_, fun hd => by have := h.all hd; omega,
    fun hd => ?_⟩⟩
  · rcases hpage j hj with heq | ⟨i, hi, heq⟩
    · exact heq ▸ hok
    · exact heq ▸ h.ok i hi
  · rcases hpage j hj with heq | ⟨i, hi, heq⟩
    · exact heq ▸ hmapped
    · exact heq ▸ h.mapped i hi
  · obtain ⟨hlt, hstop⟩ := h.stop hd
    refine ⟨by omega, ?_⟩
    rwa [show pgRoundDown d + PGSIZE + k = d + (n + k) by omega] at hstop

end Reaches

/-- The loop of `copyinstr`, with the numbers of the pages that it looks up. -/
def copyinstrVisits (pagetable psz : ℕ) :
    ℕ → Bytes → ℕ → ℕ → ℕ → MemM ((ℤ × Bytes) × List ℕ)
  | 0, dst, _, _, _ => return ((-1, dst), [])
  | fuel + 1, dst, srcva, o, max => do
    if max = 0 then return ((-1, dst), [])
    let va0 := pgRoundDown srcva
    let pa0 ← userPage pagetable psz va0
    if pa0 = 0 then return ((-1, dst), [pageOf va0])
    let n := min (PGSIZE - (srcva - va0)) max
    let (dst, gotNull) := copyStr ((← get).page pa0) n dst o (srcva - va0)
    if gotNull then return ((0, dst), [pageOf va0])
    let (r, visits) ← copyinstrVisits pagetable psz fuel dst (va0 + PGSIZE) (o + n) (max - n)
    return (r, pageOf va0 :: visits)

lemma copyinstrVisits_erase (pagetable psz fuel : ℕ) (dst : Bytes) (srcva o max : ℕ) :
    Prod.fst <$> copyinstrVisits pagetable psz fuel dst srcva o max =
      copyinstrLoop pagetable psz fuel dst srcva o max := by
  induction fuel generalizing dst srcva o max with
  | zero => rfl
  | succ fuel ih =>
    rw [copyinstrVisits, copyinstrLoop]
    split
    · rfl
    · simp only [map_bind]
      congr 1
      funext pa0
      split
      · rfl
      · simp only [map_bind]
        congr 1
        funext m
        split
        · rfl
        · simp only [map_bind, map_pure]
          rw [← ih, map_eq_pure_bind]

namespace Space

variable {psz dstva len va o n k d srcva max : ℕ} {dst dst' : Bytes}

/-- The page found for a user address is a user page. -/
lemma userPage {v : ℕ} (h : Space m T R) (hpsz : psz ≤ TRAPFRAME) (hU : T.NoUser) :
    Returns (Xv6.userPage T.root psz (v * PGSIZE)) (fun r m' => ∃ T' : PageTable,
      T'.root = T.root ∧ Space m' T' R ∧ Frame m m' (T.userPages + R) ∧ SameView m T m' T' ∧
      Faulted T.leaf T'.leaf psz v (v + 1) ∧
      ((r = 0 ∧ (T.Readable psz v → RanOut T m' T' v)) ∨
       (T.Readable psz v ∧ v < UPAGES ∧ IsPhys r ∧ ∃ e, T'.leaf v = some e ∧ pte2pa e = r))) m := by
  simp only [Returns, Xv6.userPage, wp_bind]
  refine (h.walkaddr _).imp ?_
  rintro r m' ⟨hr, hm⟩
  rw [hm]
  rw [PageTable.userAddr, pageOf_mul] at hr
  by_cases h0 : r = 0
  · rw [wp_ite_pos h0]
    refine (h.vmfault hpsz _).imp ?_
    rintro r₁ m₁ ⟨T₁, hr₁, hs₁, hf₁, hv₁, hres⟩
    refine ⟨T₁, hr₁, hs₁, hf₁, hv₁, ?_⟩
    rw [pageOf_mul] at hres
    rcases hres with ⟨hz, hl, hwhy⟩ | ⟨hlt, hnone, hp, hl⟩
    · rw [hl]
      refine ⟨Faulted.refl, Or.inl ⟨hz, fun hread => ?_⟩⟩
      -- There is an entry, and it does not allow user access.
      rw [if_neg (not_le.mpr hread.1)] at hr
      cases hleaf : T.leaf v with
      | none =>
        rw [PageTable.readable_of_none hleaf] at hread
        refine ⟨⟨denied_of_not hwhy ?_, hleaf⟩, not_not.mpr ((congrFun hl v).trans hleaf)⟩
        exact not_or.mpr ⟨by omega, not_not.mpr hleaf⟩
      | some e =>
        rw [PageTable.readable_of_some hleaf] at hread
        have hv : v < UPAGES := by
          by_contra hge
          simp [hU _ e (by omega) hleaf] at hread
        have hr' : r = pte2pa e := by simpa [hleaf, hread.2] using hr
        exact absurd (hr' ▸ h0) (h.isPhys_leaf hv hleaf).pos.ne'
    · have hv := lt_UPAGES_of_mul_lt hlt hpsz
      rw [hl]
      refine ⟨Faulted.update hnone hlt hp, Or.inr ⟨?_, hv, hp, _, update_self ..,
        pte2pa_leafEntry hp (by decide)⟩⟩
      rw [PageTable.readable_of_none hnone]
      exact ⟨mul_lt_maxva hv, hlt⟩
  · rw [wp_ite_neg h0]
    refine ⟨T, rfl, h, Frame.refl _ _, SameView.refl _ _, Faulted.refl, Or.inr ?_⟩
    -- The entry allows user access, so it is one of user memory.
    split at hr
    · exact absurd hr h0
    · next hmax =>
      cases hleaf : T.leaf v with
      | none => exact absurd (by simpa [hleaf] using hr) h0
      | some e =>
        have hhas : e.has PTE_U = true := by
          by_contra hno
          exact h0 (by simpa [hleaf, hno] using hr)
        have hv : v < UPAGES := by
          by_contra hge
          simp [hU _ e (by omega) hleaf] at hhas
        have hr' : r = pte2pa e := by simpa [hleaf, hhas] using hr
        exact ⟨(PageTable.readable_of_some hleaf).mpr ⟨not_le.mp hmax, hhas⟩, hv,
          hr' ▸ h.isPhys_leaf hv hleaf, e, rfl, hr'.symm⟩

/-- A copy to user memory gets as far as the pages may be written: `k` bytes. -/
def CopiesOut (m : Mem) (T : PageTable) (R : Multiset ℕ) (psz dstva : ℕ) (src : Bytes) (so len : ℕ)
    (r : ℤ) (m' : Mem) : Prop :=
  ∃ (T' : PageTable) (k : ℕ),
    T'.root = T.root ∧ Space m' T' R ∧ Frame m m' R ∧ Faulted T.leaf T'.leaf psz 0 UPAGES ∧
    (m'.denied = false → m.denied = false) ∧ (r = 0 ∨ r = -1) ∧
    Reaches (T.Writable psz) T'.Mapped (Lacks T m') dstva len (r = 0) k ∧ Stored m T m' T' dstva src so k

lemma copyoutLoop (hpsz : psz ≤ TRAPFRAME) (src : Bytes) (fuel : ℕ) {m : Mem}
    {T : PageTable} {so : ℕ} (h : Space m T R) (hU : T.NoUser) (hfuel : len ≤ fuel) :
    Returns (Xv6.copyoutLoop T.root psz src fuel dstva so len) (CopiesOut m T R psz dstva src so len) m := by
  induction fuel generalizing m T dstva so len with
  | zero =>
    obtain rfl : len = 0 := by omega
    exact ⟨T, 0, rfl, h, Frame.refl _ _, Faulted.refl, id, Or.inl rfl, .nil rfl,
      (SameView.refl m T).stored⟩
  | succ fuel ih =>
    simp only [Returns, Xv6.copyoutLoop]
    by_cases hlen : len = 0
    · rw [wp_ite_pos hlen, hlen]
      exact ⟨T, 0, rfl, h, Frame.refl _ _, Faulted.refl, id, Or.inl rfl, .nil rfl,
        (SameView.refl m T).stored⟩
    rw [wp_ite_neg hlen]
    by_cases hmax : pgRoundDown dstva ≥ MAXVA
    · rw [wp_ite_pos hmax]
      exact ⟨T, 0, rfl, h, Frame.refl _ _, Faulted.refl, id, Or.inr rfl,
        .none hlen (by decide) fun hw => absurd hw.1.1 (not_lt.mpr hmax),
        (SameView.refl m T).stored⟩
    rw [wp_ite_neg hmax, wp_bind, show pgRoundDown dstva = pageOf dstva * PGSIZE from rfl]
    refine ((h.userPage hpsz hU).and userPage_free).imp ?_
    rintro pa0 m₁ ⟨⟨T₁, hr₁, hs₁, hf₁, hv₁, hft, hres⟩, hd₁⟩
    have hf₁' := hf₁.mono (Multiset.le_add_left R _)
    have hft' : Faulted T.leaf T₁.leaf psz 0 UPAGES := hft.mono_size hpsz
    rcases hres with ⟨rfl, hwhy⟩ | ⟨hread, hv, hp, e, he, hpa⟩
    · rw [wp_ite_pos rfl]
      exact ⟨T₁, 0, hr₁, hs₁, hf₁', hft', fun hd => (hd₁ hd).1, Or.inr rfl,
        .none hlen (by decide) fun hw => (hwhy hw.1).1, hv₁.stored⟩
    rw [wp_ite_neg hp.pos.ne', wp_bind, ← hr₁]
    refine (hs₁.lookup (Nat.lt_of_not_le hmax)).imp ?_
    rintro r m₂ ⟨hm, hr⟩
    rw [hm]
    rw [show pageOf (pgRoundDown dstva) = pageOf dstva from pageOf_mul _] at hr
    rcases hr with ⟨_, hl⟩ | ⟨pg, hr, _, hent⟩
    · exact absurd (he.symm.trans hl) nofun
    rw [hr]
    simp only [getPte, wp_bind, wp_get, wp_pure, hent, he, Option.getD_some]
    by_cases hW : e.has PTE_W = true
    · rw [wp_ite_neg (by simp [hW])]
      simp only [wp_bind, wp_modify]
      rw [← hpa]
      obtain ⟨hs₂, hf₂⟩ := hs₁.write_user hv he ((m₁.page (pte2pa e)).blit (dstva - pgRoundDown dstva)
        src so (min (PGSIZE - (dstva - pgRoundDown dstva)) len))
      have hst := hs₁.stored_write src so hv he
        (min_le_left (PGSIZE - (dstva - pgRoundDown dstva)) len)
      refine (ih hs₂ (hU.faulted hpsz hft') (chunk_fuel hfuel)).imp ?_
      rintro r₃ m₃ ⟨T₃, k, hr₃, hs₃, hf₃, hft₃, hd₃, hres₃, hreach, hst₃⟩
      have hwrite : T.Writable psz (pageOf dstva) :=
        hft.writable.mp ⟨hft.readable.mpr hread, fun e' he' => Option.some.inj (he.symm.trans he') ▸ hW⟩
      obtain ⟨hcase, hchunk⟩ := Reaches.chunk hwrite (hft₃.mapped (.of_some he))
        (hreach.congr (fun _ => hft.writable) fun _ => hft.lacks)
      exact ⟨T₃, _, hr₃.trans hr₁, hs₃, (hf₁'.trans hf₂).trans hf₃, hft'.trans hft₃,
        fun hd => (hd₁ (hd₃ hd)).1, hres₃, hchunk,
        hv₁.trans_stored (hst.append hst₃ hcase)⟩
    · rw [wp_ite_pos (by simpa using hW)]
      refine ⟨T₁, 0, hr₁, hs₁, hf₁', hft', fun hd => (hd₁ hd).1, Or.inr rfl,
        .none hlen (by decide) fun hw => ?_, hv₁.stored⟩
      exact absurd ((hft.writable.mpr hw).2 e he) hW

/-- **`copyout`** copies `src` to the user pages that may be written, as far as there are any; the
user sees no other change, and nobody else any. -/
lemma copyout (h : Space m T R) (hpsz : psz ≤ TRAPFRAME) (hU : T.NoUser) (src : Bytes) :
    Returns (Xv6.copyout T.root psz dstva src len) (CopiesOut m T R psz dstva src 0 len) m :=
  copyoutLoop hpsz src len h hU le_rfl

/-- The destination of `copyin`: `k` user bytes from the address `va` on are at the offset `o`. -/
def Fetched (m : Mem) (T : PageTable) (dst dst' : Bytes) (va o k : ℕ) : Prop :=
  ∀ i, dst' i = if o ≤ i ∧ i < o + k then T.byte m.page (va + (i - o)) else dst i

omit [Layout] in
lemma Fetched.nil : Fetched m T dst dst va o 0 :=
  fun i => by rw [if_neg (by omega)]

omit [Layout] in
lemma Fetched.append {dst'' : Bytes} {va' : ℕ} (h : Fetched m T dst dst' va o n)
    (h' : Fetched m T dst' dst'' va' (o + n) k) (hva : k = 0 ∨ va' = va + n) :
    Fetched m T dst dst'' va o (n + k) := by
  intro i
  rw [h' i, h i]
  by_cases h₂ : o + n ≤ i ∧ i < o + n + k
  · rw [if_pos h₂, if_pos (by omega), show va' + (i - (o + n)) = va + (i - o) by omega]
  · rw [if_neg h₂]
    by_cases h₁ : o ≤ i ∧ i < o + n
    · rw [if_pos h₁, if_pos (by omega)]
    · rw [if_neg h₁, if_neg (by omega)]

omit [Layout] in
lemma Fetched.congr {T' : PageTable} (h : Fetched m' T' dst dst' va o k)
    (hsame : ∀ j < k, T'.byte m'.page (va + j) = T.byte m.page (va + j)) :
    Fetched m T dst dst' va o k := fun i => by
  rw [h i]
  split
  · exact hsame _ (by omega)
  · rfl

omit [Layout] in
/-- A chunk from one page. -/
lemma fetched_blit {e : Pte} (he : T.leaf (pageOf d) = some e)
    (hn : n ≤ PGSIZE - (d - pgRoundDown d)) :
    Fetched m T dst (dst.blit o (m.page (pte2pa e)) (d - pgRoundDown d) n) d o n := by
  intro i
  by_cases hin : o ≤ i ∧ i < o + n
  · obtain ⟨hpage, hoff⟩ := chunk_addr (j := i - o) (by omega) hn
    rw [if_pos hin, Bytes.blit_of_mem hin, PageTable.byte, hpage, hoff, PageTable.view_of_some he]
  · rw [if_neg hin, Bytes.blit_of_notMem hin]

/-- A copy from user memory gets as far as the pages may be read: `k` bytes. -/
def CopiesIn (m : Mem) (T : PageTable) (R : Multiset ℕ) (psz : ℕ) (dst : Bytes) (srcva o len : ℕ)
    (r : ℤ × Bytes) (m' : Mem) : Prop :=
  ∃ (T' : PageTable) (k : ℕ),
    T'.root = T.root ∧ Space m' T' R ∧ Frame m m' (T.userPages + R) ∧ SameView m T m' T' ∧
    Faulted T.leaf T'.leaf psz 0 UPAGES ∧ (m'.denied = false → m.denied = false) ∧
    (r.1 = 0 ∨ r.1 = -1) ∧ Reaches (T.Readable psz) T'.Mapped (Lacks T m') srcva len (r.1 = 0) k ∧
    Fetched m T dst r.2 srcva o k

lemma copyinLoop (hpsz : psz ≤ TRAPFRAME) (fuel : ℕ) {m : Mem} {T : PageTable}
    (h : Space m T R) (hU : T.NoUser) (hfuel : len ≤ fuel) :
    Returns (Xv6.copyinLoop T.root psz fuel dst srcva o len) (CopiesIn m T R psz dst srcva o len) m := by
  induction fuel generalizing m T dst srcva o len with
  | zero =>
    obtain rfl : len = 0 := by omega
    exact ⟨T, 0, rfl, h, Frame.refl _ _, SameView.refl _ _, Faulted.refl, id, Or.inl rfl, .nil rfl,
      .nil⟩
  | succ fuel ih =>
    simp only [Returns, Xv6.copyinLoop]
    by_cases hlen : len = 0
    · rw [wp_ite_pos hlen, hlen]
      exact ⟨T, 0, rfl, h, Frame.refl _ _, SameView.refl _ _, Faulted.refl, id, Or.inl rfl, .nil rfl,
        .nil⟩
    rw [wp_ite_neg hlen, wp_bind, show pgRoundDown srcva = pageOf srcva * PGSIZE from rfl]
    refine ((h.userPage hpsz hU).and userPage_free).imp ?_
    rintro pa0 m₁ ⟨⟨T₁, hr₁, hs₁, hf₁, hv₁, hft, hres⟩, hd₁⟩
    have hft' : Faulted T.leaf T₁.leaf psz 0 UPAGES := hft.mono_size hpsz
    rcases hres with ⟨rfl, hwhy⟩ | ⟨hread, hv, hp, e, he, hpa⟩
    · rw [wp_ite_pos rfl]
      exact ⟨T₁, 0, hr₁, hs₁, hf₁, hv₁, hft', fun hd => (hd₁ hd).1, Or.inr rfl,
        .none hlen (show ¬(-1 : ℤ) = 0 by decide) fun hread => (hwhy hread).1, .nil⟩
    rw [wp_ite_neg hp.pos.ne']
    simp only [wp_bind, wp_get, ← hr₁, ← hpa]
    refine (ih hs₁ (hU.faulted hpsz hft') (chunk_fuel hfuel)).imp ?_
    rintro r₃ m₃ ⟨T₃, k, hr₃, hs₃, hf₃, hv₃, hft₃, hd₃, hres₃, hreach, hfe⟩
    obtain ⟨hcase, hchunk⟩ := Reaches.chunk hread (hft₃.mapped (.of_some he))
      (hreach.congr (fun _ => hft.readable) fun _ => hft.lacks)
    refine ⟨T₃, _, hr₃.trans hr₁, hs₃, hf₁.trans (hf₃.mono (add_le_add hft.userPages_le le_rfl)),
      hv₁.trans hv₃, hft'.trans hft₃, fun hd => (hd₁ (hd₃ hd)).1, hres₃, hchunk, ?_⟩
    refine ((fetched_blit he (min_le_left _ _)).append hfe hcase).congr fun j hj => ?_
    exact hv₁.byte ((hchunk.ok j hj).lt_UPAGES hpsz hU)

/-- **`copyin`** fetches user bytes from the pages that may be read, as far as there are any, and
changes nothing that anybody sees. -/
lemma copyin (h : Space m T R) (hpsz : psz ≤ TRAPFRAME) (hU : T.NoUser) (dst : Bytes) :
    Returns (Xv6.copyin T.root psz dst srcva len) (CopiesIn m T R psz dst srcva 0 len) m :=
  copyinLoop hpsz len h hU le_rfl

/-- How far `copyinstr` gets when it reads `byte`s from the address `d` on: up to the first NUL, or
until `max` bytes have been read or one cannot be. -/
structure ReachesNul (P Q L : ℕ → Prop) (byte : ℕ → Byte) (d max : ℕ) (got : Prop) (k : ℕ) :
    Prop where
  le : k ≤ max
  ok : ∀ j < k, P (pageOf (d + j))
  mapped : ∀ j < k, Q (pageOf (d + j))
  nul : got → 0 < k ∧ byte (d + (k - 1)) = 0 ∧ ∀ j < k - 1, byte (d + j) ≠ 0
  stop : ¬got → (∀ j < k, byte (d + j) ≠ 0) ∧
    (k < max → P (pageOf (d + k)) → L (pageOf (d + k)))

section ReachesNul

variable {P Q L : ℕ → Prop} {byte byte' : ℕ → Byte} {d max k n : ℕ} {got : Prop}

omit [Layout] in
/-- Nothing is read. -/
lemma ReachesNul.none (hgot : ¬got) (hstop : max ≠ 0 → P (pageOf d) → L (pageOf d)) :
    ReachesNul P Q L byte d max got 0 where
  le := Nat.zero_le _
  ok _ h := absurd h (Nat.not_lt_zero _)
  mapped _ h := absurd h (Nat.not_lt_zero _)
  nul h := absurd h hgot
  stop _ := ⟨fun _ h => absurd h (Nat.not_lt_zero _), fun h => hstop h.ne'⟩

omit [Layout] in
/-- The NUL is in the page of `d`. -/
lemma ReachesNul.found (hok : P (pageOf d)) (hmapped : Q (pageOf d))
    (hn : n ≤ min (PGSIZE - (d - pgRoundDown d)) max)
    (hpos : 0 < n) (hnul : byte (d + (n - 1)) = 0) (hne : ∀ j < n - 1, byte (d + j) ≠ 0)
    (hgot : got) : ReachesNul P Q L byte d max got n where
  le := hn.trans (min_le_right _ _)
  ok _ hj := (chunk_addr hj (hn.trans (min_le_left _ _))).1 ▸ hok
  mapped _ hj := (chunk_addr hj (hn.trans (min_le_left _ _))).1 ▸ hmapped
  nul _ := ⟨hpos, hnul, hne⟩
  stop h := absurd hgot h

omit [Layout] in
/-- The page of `d` has no NUL from `d` on, and the copy goes on at the next page. -/
lemma ReachesNul.chunk (hok : P (pageOf d)) (hmapped : Q (pageOf d))
    (hne : ∀ j < min (PGSIZE - (d - pgRoundDown d)) max, byte (d + j) ≠ 0)
    (h : ReachesNul P Q L byte (pgRoundDown d + PGSIZE)
      (max - min (PGSIZE - (d - pgRoundDown d)) max) got k) :
    (k = 0 ∨ pgRoundDown d + PGSIZE = d + min (PGSIZE - (d - pgRoundDown d)) max) ∧
    ReachesNul P Q L byte d max got (min (PGSIZE - (d - pgRoundDown d)) max + k) := by
  obtain ⟨h₁, h₂⟩ := pgRoundDown_bounds d
  have hle := h.le
  set n := min (PGSIZE - (d - pgRoundDown d)) max with hn
  have hcase : k = 0 ∨ pgRoundDown d + PGSIZE = d + n := by omega
  -- The bytes after the first chunk are those of the next pages.
  have hnext : ∀ j, n ≤ j → j < n + k → pgRoundDown d + PGSIZE + (j - n) = d + j := by
    intro j h₃ h₄
    omega
  have hrest : ∀ j, n ≤ j → j < n + k → byte (pgRoundDown d + PGSIZE + (j - n)) ≠ 0 →
      byte (d + j) ≠ 0 := fun j h₃ h₄ h₅ => hnext j h₃ h₄ ▸ h₅
  have hpage : ∀ j < n, pageOf (d + j) = pageOf d := fun j hj => (chunk_addr hj (by omega)).1
  refine ⟨hcase, ⟨by omega, fun j hj => ?_, fun j hj => ?_, fun hf => ?_,
    fun hf => ⟨fun j hj => ?_, fun hlt hP => ?_⟩⟩⟩
  · by_cases hjn : j < n
    · exact hpage j hjn ▸ hok
    · exact hnext j (by omega) hj ▸ h.ok (j - n) (by omega)
  · by_cases hjn : j < n
    · exact hpage j hjn ▸ hmapped
    · exact hnext j (by omega) hj ▸ h.mapped (j - n) (by omega)
  · obtain ⟨hpos, hnul, hbefore⟩ := h.nul hf
    refine ⟨by omega, ?_, fun j hj => ?_⟩
    · rw [← hnext (n + k - 1) (by omega) (by omega), show n + k - 1 - n = k - 1 by omega]
      exact hnul
    · by_cases hjn : j < n
      · exact hne j hjn
      · exact hrest j (by omega) (by omega) (hbefore (j - n) (by omega))
  · by_cases hjn : j < n
    · exact hne j hjn
    · exact hrest j (by omega) hj ((h.stop hf).1 (j - n) (by omega))
  · have hstop := (h.stop hf).2 (by omega)
    rw [show pgRoundDown d + PGSIZE + k = d + (n + k) by omega] at hstop
    exact hstop hP

omit [Layout] in
lemma ReachesNul.congr {P' L' : ℕ → Prop} (h : ReachesNul P Q L byte d max got k)
    (hP : ∀ v, P v ↔ P' v) (hL : ∀ v, L v → L' v)
    (hbyte : ∀ j < k, byte (d + j) = byte' (d + j)) :
    ReachesNul P' Q L' byte' d max got k := by
  obtain rfl : P = P' := funext fun v => propext (hP v)
  refine ⟨h.le, h.ok, h.mapped, fun hf => ?_,
    fun hf => ⟨fun j hj => ?_, fun hlt hP => hL _ ((h.stop hf).2 hlt hP)⟩⟩
  · obtain ⟨hpos, hnul, hne⟩ := h.nul hf
    exact ⟨hpos, hbyte (k - 1) (by omega) ▸ hnul, fun j hj => hbyte j (by omega) ▸ hne j hj⟩
  · exact hbyte j hj ▸ (h.stop hf).1 j hj

end ReachesNul

omit [Layout] in
/-- The inner loop of `copyinstr`. -/
lemma copyStr_spec (src : Bytes) (n : ℕ) (dst : Bytes) (o so : ℕ) :
    ∃ k ≤ n, (copyStr src n dst o so).1 = dst.blit o src so k ∧
      ((copyStr src n dst o so).2 = true → 0 < k ∧ src (so + (k - 1)) = 0 ∧
        ∀ j < k - 1, src (so + j) ≠ 0) ∧
      ((copyStr src n dst o so).2 = false → k = n ∧ ∀ j < n, src (so + j) ≠ 0) := by
  induction n generalizing dst o so with
  | zero => exact ⟨0, le_rfl, (Bytes.blit_zero ..).symm, nofun, fun _ => ⟨rfl, nofun⟩⟩
  | succ n ih =>
    rw [copyStr]
    have hone : update dst o (src so) = dst.blit o src so 1 := by
      funext i
      by_cases hi : i = o
      · subst hi
        rw [update_self, Bytes.blit_of_mem (by omega), Nat.sub_self, Nat.add_zero]
      · rw [update_of_ne hi, Bytes.blit_of_notMem (by omega)]
    split
    · next h0 =>
      exact ⟨1, by omega, hone, fun _ => ⟨Nat.one_pos, h0, nofun⟩, nofun⟩
    · next h0 =>
      obtain ⟨k, hk, hdst, hnul, hall⟩ := ih (update dst o (src so)) (o + 1) (so + 1)
      -- The byte at `so` comes before those of the rest.
      have hfirst : ∀ j l, j < l + 1 → (∀ i < l, src (so + 1 + i) ≠ 0) → src (so + j) ≠ 0 := by
        intro j l hj hl
        cases j with
        | zero => exact h0
        | succ j => exact (show so + 1 + j = so + (j + 1) by omega) ▸ hl j (by omega)
      refine ⟨k + 1, by omega, ?_, fun hgot => ?_, fun hgot => ?_⟩
      · rw [hdst, hone]
        funext i
        unfold Bytes.blit
        split_ifs <;> first | rfl | omega | (congr 1; omega)
      · obtain ⟨hpos, hz, hne⟩ := hnul hgot
        refine ⟨by omega, ?_, fun j hj => hfirst j (k - 1) (by omega) hne⟩
        rwa [show so + 1 + (k - 1) = so + (k + 1 - 1) by omega] at hz
      · obtain ⟨rfl, hne⟩ := hall hgot
        exact ⟨rfl, fun j hj => hfirst j k hj hne⟩

/-- The pages `vs` that a copy of a string from `d` on looks up are those of the `k` bytes it copies
and, if it does not get to the NUL, that of the next one. -/
def Visits (d max k : ℕ) (got : Prop) (vs : List ℕ) : Prop :=
  ∀ v ∈ vs, ∃ j < max, (j < k ∨ j = k ∧ ¬got) ∧ v = pageOf (d + j)

omit [Layout] in
/-- The page of `d` is looked up before the next ones. -/
lemma Visits.chunk {got : Prop} {vs : List ℕ} (hmax : max ≠ 0)
    (h : Visits (pgRoundDown d + PGSIZE) (max - min (PGSIZE - (d - pgRoundDown d)) max) k got vs) :
    Visits d max (min (PGSIZE - (d - pgRoundDown d)) max + k) got (pageOf d :: vs) := by
  obtain ⟨h₁, h₂⟩ := pgRoundDown_bounds d
  intro v hv
  rcases List.mem_cons.mp hv with rfl | hv
  · exact ⟨0, by omega, Or.inl (by omega), rfl⟩
  · obtain ⟨j, hj, hk, rfl⟩ := h v hv
    refine ⟨min (PGSIZE - (d - pgRoundDown d)) max + j, by omega, ?_, congrArg pageOf (by omega)⟩
    rcases hk with hk | ⟨hk, hgot⟩
    · exact Or.inl (by omega)
    · exact Or.inr ⟨by omega, hgot⟩

lemma copyinstrVisits (hpsz : psz ≤ TRAPFRAME) (fuel : ℕ) {m : Mem} {T : PageTable}
    (h : Space m T R) (hU : T.NoUser) (hfuel : max ≤ fuel) :
    Returns (Xv6.copyinstrVisits T.root psz fuel dst srcva o max) (fun r m' =>
      ∃ (T' : PageTable) (k : ℕ), T'.root = T.root ∧ Space m' T' R ∧ Frame m m' (T.userPages + R) ∧
      SameView m T m' T' ∧ Faulted T.leaf T'.leaf psz 0 UPAGES ∧
      (m'.denied = false → m.denied = false) ∧ (r.1.1 = 0 ∨ r.1.1 = -1) ∧
      ReachesNul (T.Readable psz) T'.Mapped (RanOut T m' T') (T.byte m.page) srcva max (r.1.1 = 0) k ∧
      Fetched m T dst r.1.2 srcva o k ∧ Visits srcva max k (r.1.1 = 0) r.2 ∧
      ∀ v, T'.leaf v ≠ T.leaf v → v ∈ r.2) m := by
  have hfail : ¬(-1 : ℤ) = 0 := by decide
  induction fuel generalizing m T dst srcva o max with
  | zero =>
    exact ⟨T, 0, rfl, h, Frame.refl _ _, SameView.refl _ _, Faulted.refl, id, Or.inr rfl,
      .none hfail fun h0 => absurd (Nat.le_zero.mp hfuel) h0, .nil, List.forall_mem_nil _, fun _ hne => absurd rfl hne⟩
  | succ fuel ih =>
    simp only [Returns, Xv6.copyinstrVisits]
    by_cases hmax : max = 0
    · rw [wp_ite_pos hmax]
      exact ⟨T, 0, rfl, h, Frame.refl _ _, SameView.refl _ _, Faulted.refl, id, Or.inr rfl,
        .none hfail fun h0 => absurd hmax h0, .nil, List.forall_mem_nil _, fun _ hne => absurd rfl hne⟩
    rw [wp_ite_neg hmax, wp_bind, show pgRoundDown srcva = pageOf srcva * PGSIZE from rfl, pageOf_mul]
    refine ((h.userPage hpsz hU).and userPage_free).imp ?_
    rintro pa0 m₁ ⟨⟨T₁, hr₁, hs₁, hf₁, hv₁, hft, hres⟩, hd₁⟩
    have hft' : Faulted T.leaf T₁.leaf psz 0 UPAGES := hft.mono_size hpsz
    have hfirst : ∀ v, T₁.leaf v ≠ T.leaf v → v = pageOf srcva := by
      intro v hne
      rcases hft v with heq | ⟨-, h₁, h₂, -⟩
      · exact absurd heq hne
      · omega
    rcases hres with ⟨rfl, hwhy⟩ | ⟨hread, hv, hp, e, he, hpa⟩
    · rw [wp_ite_pos rfl]
      refine ⟨T₁, 0, hr₁, hs₁, hf₁, hv₁, hft', fun hd => (hd₁ hd).1, Or.inr rfl,
        .none hfail fun _ hread => hwhy hread, .nil, ?_,
        fun v hne => List.mem_singleton.mpr (hfirst v hne)⟩
      intro v hv
      exact ⟨0, Nat.pos_of_ne_zero hmax, Or.inr ⟨rfl, hfail⟩, List.mem_singleton.mp hv⟩
    rw [wp_ite_neg hp.pos.ne']
    simp only [wp_bind, wp_get, ← hr₁, ← hpa, show pageOf srcva * PGSIZE = pgRoundDown srcva from rfl]
    set n := min (PGSIZE - (srcva - pgRoundDown srcva)) max with hn
    have hle : n ≤ PGSIZE - (srcva - pgRoundDown srcva) := min_le_left _ _
    obtain ⟨k₁, hk₁, hdst, hnul, hall⟩ :=
      copyStr_spec (m₁.page (pte2pa e)) n dst o (srcva - pgRoundDown srcva)
    have hbyte : ∀ j < n, m₁.page (pte2pa e) (srcva - pgRoundDown srcva + j) =
        T₁.byte m₁.page (srcva + j) := by
      intro j hj
      obtain ⟨hpage, hoff⟩ := chunk_addr hj hle
      rw [PageTable.byte, hpage, hoff, PageTable.view_of_some he]
    have hread₁ := hft.readable.mpr hread
    have hU₁ := hU.faulted hpsz hft'
    cases hgot : (copyStr (m₁.page (pte2pa e)) n dst o (srcva - pgRoundDown srcva)).2 with
    | true =>
      obtain ⟨hpos, hz, hne⟩ := hnul hgot
      have hreach : ReachesNul (T₁.Readable psz) T₁.Mapped (RanOut T m₁ T₁) (T₁.byte m₁.page) srcva max
          ((0 : ℤ) = 0) k₁ := by
        refine .found hread₁ (.of_some he) hk₁ hpos ?_ (fun j hj => ?_) rfl
        · rw [← hbyte _ (by omega)]
          exact hz
        · rw [← hbyte _ (by omega)]
          exact hne j hj
      have hsame : ∀ j < k₁, T₁.byte m₁.page (srcva + j) = T.byte m.page (srcva + j) :=
        fun j hj => hv₁.byte ((hft.readable.mp (hreach.ok j hj)).lt_UPAGES hpsz hU)
      rw [wp_ite_pos rfl, hdst]
      refine ⟨T₁, k₁, rfl, hs₁, hf₁, hv₁, hft', fun hd => (hd₁ hd).1, Or.inl rfl,
        hreach.congr (fun _ => hft.readable) (fun _ => id) hsame,
        (fetched_blit he (hk₁.trans hle)).congr hsame, ?_,
        fun v hne => List.mem_singleton.mpr (hfirst v hne)⟩
      intro v hv
      exact ⟨0, Nat.pos_of_ne_zero hmax, Or.inl hpos, List.mem_singleton.mp hv⟩
    | false =>
      obtain ⟨rfl, hne⟩ := hall hgot
      rw [wp_ite_neg (by decide), hdst, wp_bind]
      refine (ih hs₁ hU₁ (chunk_fuel hfuel)).imp ?_
      rintro r₃ m₃ ⟨T₃, k, hr₃, hs₃, hf₃, hv₃, hft₃, hd₃, hres₃, hreach, hfe, hvis, hch⟩
      obtain ⟨hcase, hchunk⟩ := ReachesNul.chunk hread₁ (hft₃.mapped (.of_some he))
        (fun j hj => hbyte j hj ▸ hne j hj) hreach
      have hsame : ∀ j < n + k, T₁.byte m₁.page (srcva + j) = T.byte m.page (srcva + j) :=
        fun j hj => hv₁.byte ((hft.readable.mp (hchunk.ok j hj)).lt_UPAGES hpsz hU)
      refine ⟨T₃, n + k, hr₃, hs₃, hf₁.trans (hf₃.mono (add_le_add hft.userPages_le le_rfl)),
        hv₁.trans hv₃, hft'.trans hft₃, fun hd => (hd₁ (hd₃ hd)).1, hres₃,
        hchunk.congr (fun _ => hft.readable) (fun _ hL => ⟨hft.lacks hL.1, hL.2⟩) hsame,
        ((fetched_blit he hle).append hfe hcase).congr hsame, hvis.chunk hmax, fun v hne => ?_⟩
      by_cases heq : T₃.leaf v = T₁.leaf v
      · exact List.mem_cons.mpr (Or.inl (hfirst v (heq ▸ hne)))
      · exact List.mem_cons.mpr (Or.inr (hch v heq))

/-- **`copyinstr`** fetches user bytes up to the first NUL from the pages that may be read, and changes
nothing that anybody sees. -/
lemma copyinstr (h : Space m T R) (hpsz : psz ≤ TRAPFRAME) (hU : T.NoUser) (dst : Bytes) :
    Returns (Xv6.copyinstr T.root psz dst srcva max) (fun r m' => ∃ (T' : PageTable) (k : ℕ),
      T'.root = T.root ∧ Space m' T' R ∧ Frame m m' (T.userPages + R) ∧ SameView m T m' T' ∧
      Faulted T.leaf T'.leaf psz 0 UPAGES ∧ (m'.denied = false → m.denied = false) ∧
      (r.1 = 0 ∨ r.1 = -1) ∧
      ReachesNul (T.Readable psz) T'.Mapped (RanOut T m' T') (T.byte m.page) srcva max (r.1 = 0) k ∧
      Fetched m T dst r.2 srcva 0 k) m := by
  rw [Returns, Xv6.copyinstr, ← copyinstrVisits_erase, wp_map]
  refine (copyinstrVisits hpsz max h hU le_rfl).imp ?_
  rintro r m' ⟨T', k, hroot, hs, hf, hv, hft, hd, hres, hreach, hfe, _⟩
  exact ⟨T', k, hroot, hs, hf, hv, hft, hd, hres, hreach, hfe⟩

end Space

end Xv6
