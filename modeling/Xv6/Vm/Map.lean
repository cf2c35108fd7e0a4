import Xv6.Vm.Access
import Xv6.Vm.User

/-!
# The page table is a map

A page table of three levels stands for a partial function: from page-aligned addresses below
`MAXVA` to a physical page and the flags of its entry.  `Mem.mapping` is that function, read off the
memory as the hardware walks the table, and `PageTableMap` says what `walk`, `mappages` and
`uvmunmap` do to it.
-/

namespace Xv6

/-- What an entry of the lowest level stands for. -/
def Pte.target (pte : Pte) : Option (ℕ × Pte) :=
  if pte.has PTE_V then some (pte2pa pte, pteFlags pte) else none

/-- The translation of the table with the given root. -/
def Mem.mapping (m : Mem) (root va : ℕ) : Option (ℕ × Pte) :=
  if va % PGSIZE = 0 ∧ va < MAXVA then (m.leafAt root (pageOf va)).bind Pte.target else none

/-- The slot of the entry for an address: a page of the lowest level and an index. -/
def Mem.slot (m : Mem) (root va : ℕ) : Option (ℕ × ℕ) :=
  (m.nodeAt root (.low (px 2 va) (px 1 va))).map (·, px 0 va)

/-- A translation extended by the pages of `[va, va + size)`, mapped to those from `pa` on. -/
def extend (f : ℕ → Option (ℕ × Pte)) (va size pa : ℕ) (flags : Pte) : ℕ → Option (ℕ × Pte) := fun a =>
  if a % PGSIZE = 0 ∧ va ≤ a ∧ a < va + size then some (pa + (a - va), flags) else f a

/-- A translation without the pages of `[va, va + size)`. -/
def remove (f : ℕ → Option (ℕ × Pte)) (va size : ℕ) : ℕ → Option (ℕ × Pte) := fun a =>
  if va ≤ a ∧ a < va + size then none else f a

/-- The physical pages of the `n` pages from `va` on. -/
def mappedPages (f : ℕ → Option (ℕ × Pte)) (va n : ℕ) : Multiset ℕ :=
  gather (Finset.range n) fun i => (f (va + i * PGSIZE)).map Prod.fst

section Tables

variable [Layout]

/-- Memory holds a page table with the given root; besides its own pages, those of `R` are in use. -/
def Tree (m : Mem) (root : ℕ) (R : Multiset ℕ) : Prop := ∃ T : PageTable, T.root = root ∧ Owns m T R

/-- The operations on a page table, as operations on its translation. -/
structure PageTableMap (m : Mem) (root : ℕ) (R : Multiset ℕ) : Prop where
  -- `walk` without `alloc` finds the entry and changes nothing
  lookup : ∀ va < MAXVA, Returns (walk root va false) (fun r m' => m' = m ∧ r = m.slot root va ∧
    m.mapping root (pgRoundDown va) = r.bind fun s => Pte.target ((m.page s.1).get64 (8 * s.2))) m
  -- `walk` with `alloc` leaves the translation alone, whether or not it finds memory
  alloc : ∀ va < MAXVA, Returns (walk root va true) (fun r m' => Tree m' root R ∧
    m'.mapping root = m.mapping root ∧ ∀ s, r = some s → m'.slot root va = some s) m
  -- `mappages` extends it, by all the pages or by some of the first ones
  map : ∀ va size pa perm, va % PGSIZE = 0 → size % PGSIZE = 0 → 0 < size → va + size ≤ MAXVA →
    pa % PGSIZE = 0 → pa + size ≤ 2 ^ 56 → IsFlags perm →
    (∀ a, va ≤ a → a < va + size → m.mapping root a = none) →
    Returns (mappages root va size pa perm) (fun r m' => Tree m' root R ∧
      ∃ done, (r = 0 ∧ done = size ∨ r = -1 ∧ done % PGSIZE = 0 ∧ done < size) ∧
        m'.mapping root = extend (m.mapping root) va done pa (perm ||| PTE_V)) m
  -- `uvmunmap` removes the pages
  unmap : ∀ va n, va % PGSIZE = 0 → va + n * PGSIZE ≤ MAXVA →
    Returns (uvmunmap root va n false) (fun _ m' => Tree m' root R ∧
      m'.mapping root = remove (m.mapping root) va (n * PGSIZE)) m
  -- and, if asked to, frees the physical pages they mapped and nothing else
  free : ∀ va n R', va % PGSIZE = 0 → va + n * PGSIZE ≤ MAXVA →
    R = mappedPages (m.mapping root) va n + R' →
    Returns (uvmunmap root va n true) (fun _ m' => Tree m' root R' ∧
      m'.mapping root = remove (m.mapping root) va (n * PGSIZE) ∧
      ∃ S, m.Used (mappedPages (m.mapping root) va n + S) ∧ m'.Used S) m
  -- no two addresses share a slot
  slots : ∀ va va' s, va % PGSIZE = 0 → va' % PGSIZE = 0 → va < MAXVA → va' < MAXVA →
    m.slot root va = some s → m.slot root va' = some s → va = va'

/-! ## The translation of a table -/

/-- The translation, from the leaves. -/
def PageTable.mapping (T : PageTable) (va : ℕ) : Option (ℕ × Pte) :=
  if va % PGSIZE = 0 ∧ va < MAXVA then (T.leaf (pageOf va)).bind Pte.target else none

variable {m m' : Mem} {T T' : PageTable} {R : Multiset ℕ} {perm : Pte} {root : ℕ}

omit [Layout] in
lemma PageTable.mapping_congr (h : T'.leaf = T.leaf) : T'.mapping = T.mapping := by
  funext va
  rw [mapping, mapping, h]

lemma Owns.nodeAt (h : Owns m T R) (x : TPos) : m.nodeAt T.root x = T.node x :=
  h.repr.nodeAt (fun _ _ hx => h.isPhys hx) x

lemma Owns.mapping (h : Owns m T R) : m.mapping T.root = T.mapping := by
  funext va
  rw [Mem.mapping, PageTable.mapping, h.repr.leafAt (fun _ _ hx => h.isPhys hx)]

lemma Owns.slot (h : Owns m T R) (va : ℕ) :
    m.slot T.root va = (T.low (px 2 va) (px 1 va)).map (·, px 0 va) := by
  rw [Mem.slot, h.nodeAt]
  rfl

omit [Layout] in
lemma target_leafEntry {pa : ℕ} (ha : pa % PGSIZE = 0) (hlt : pa < 2 ^ 56) (hf : IsFlags perm) :
    (leafEntry pa perm).target = some (pa, perm ||| PTE_V) := by
  have hpa : pte2pa (leafEntry pa perm) = pa := by
    rw [leafEntry, BitVec.or_assoc]
    exact pte2pa_pa2pte_or ha hlt (isFlags_or_V hf)
  rw [Pte.target, hpa, pteFlags_leafEntry hf]
  exact if_pos (has_V_or_V _)

omit [Layout] in
/-- The virtual page number of an aligned address. -/
lemma aligned_eq {va : ℕ} (h : va % PGSIZE = 0) : va = pageOf va * PGSIZE := by
  unfold pageOf PGSIZE at *
  omega

/-! ## `mappages` -/

/-- The leaves after `k` pages from `v` on have been mapped. -/
def mapLeaves (f : ℕ → Option Pte) (v k pa : ℕ) (perm : Pte) : ℕ → Option Pte := fun u =>
  if v ≤ u ∧ u < v + k then some (leafEntry (pa + (u - v) * PGSIZE) perm) else f u

omit [Layout] in
lemma mapLeaves_zero (f : ℕ → Option Pte) (v pa : ℕ) (perm : Pte) : mapLeaves f v 0 pa perm = f := by
  funext u
  exact if_neg (by omega)

omit [Layout] in
lemma mapLeaves_succ (f : ℕ → Option Pte) (v k pa : ℕ) (perm : Pte) :
    mapLeaves (Function.update f v (some (leafEntry pa perm))) (v + 1) k (pa + PGSIZE) perm =
      mapLeaves f v (k + 1) pa perm := by
  funext u
  unfold mapLeaves
  by_cases hu : u = v
  · subst hu
    rw [if_neg (by omega), if_pos (by omega), Function.update_self]
    simp
  · rw [Function.update_of_ne hu]
    by_cases hin : v + 1 ≤ u ∧ u < v + 1 + k
    · rw [if_pos hin, if_pos (by omega)]
      have hpa : pa + PGSIZE + (u - (v + 1)) * PGSIZE = pa + (u - v) * PGSIZE := by
        unfold PGSIZE
        omega
      rw [hpa]
    · rw [if_neg hin, if_neg (by omega)]

/-- The loop of `mappages` over unmapped pages maps them, or the first ones of them. -/
lemma Owns.mappagesLoop (n : ℕ) {v pa : ℕ} {m : Mem} {T : PageTable} (h : Owns m T R)
    (hmax : (v + n) * PGSIZE ≤ MAXVA) (hnone : ∀ u, v ≤ u → u < v + n → T.leaf u = none) :
    Returns (Xv6.mappagesLoop T.root perm n (v * PGSIZE) pa) (fun r m' => ∃ (T' : PageTable) (k : ℕ),
      T'.root = T.root ∧ Owns m' T' R ∧ (r = 0 ∧ k = n ∨ r = -1 ∧ k < n) ∧
      T'.leaf = mapLeaves T.leaf v k pa perm) m := by
  induction n generalizing v pa m T with
  | zero => exact ⟨T, 0, rfl, h, Or.inl ⟨rfl, rfl⟩, (mapLeaves_zero _ _ _ _).symm⟩
  | succ n ih =>
    have hva : v * PGSIZE < MAXVA := by
      unfold PGSIZE at *
      omega
    simp only [Returns, Xv6.mappagesLoop, wp_bind]
    refine (h.walk_true hva).imp ?_
    rintro r m₁ ⟨T₁, hr₁, hl₁, ho₁, _, hloc⟩
    cases r with
    | none =>
      exact ⟨T₁, 0, hr₁, ho₁, Or.inr ⟨rfl, Nat.succ_pos n⟩, by rw [hl₁, mapLeaves_zero]⟩
    | some loc =>
      obtain ⟨hlow, hk⟩ := hloc loc rfl
      obtain ⟨pg, i⟩ := loc
      subst hk
      have hentry : (m₁.page pg).get64 (8 * px 0 (v * PGSIZE)) = 0 := by
        rw [ho₁.getPte_low hva hlow, hl₁, pageOf_mul, hnone v le_rfl (by omega)]
        rfl
      simp only [getPte, wp_bind, wp_get, wp_pure, hentry]
      rw [wp_ite_neg (by simp)]
      simp only [setPte, wp_modify, wp_bind]
      obtain ⟨T₂, hr₂, hl₂, ho₂, -⟩ := ho₁.setPte_low (o := some (leafEntry pa perm)) hva hlow
        (by rintro e he; obtain rfl := Option.some.inj he; exact has_V_or_V _)
      rw [pageOf_mul, hl₁] at hl₂
      have hend : v + 1 + n = v + (n + 1) := by omega
      have hmax' : (v + 1 + n) * PGSIZE ≤ MAXVA := by simpa only [hend] using hmax
      have hnone' : ∀ u, v + 1 ≤ u → u < v + 1 + n → T₂.leaf u = none := fun u h₁ h₂ => by
        rw [hl₂, Function.update_of_ne (by omega)]
        exact hnone u (by omega) (by omega)
      have hnext := @ih (v + 1) (pa + PGSIZE) _ T₂ ho₂ hmax' hnone'
      rw [(PageTable.root_eq hr₂).trans hr₁,
        show (v + 1) * PGSIZE = v * PGSIZE + PGSIZE from Nat.succ_mul v PGSIZE] at hnext
      refine hnext.imp ?_
      rintro r m₃ ⟨T₃, k, hr₃, ho₃, hres, hl₃⟩
      refine ⟨T₃, k + 1, hr₃, ho₃, ?_, by rw [hl₃, hl₂, mapLeaves_succ]⟩
      exact hres.imp (fun hr => ⟨hr.1, by omega⟩) fun hr => ⟨hr.1, by omega⟩

omit [Layout] in
/-- The translation that mapped leaves stand for. -/
lemma PageTable.mapping_mapLeaves {v k pa : ℕ} (h : T'.leaf = mapLeaves T.leaf v k pa perm)
    (hmax : (v + k) * PGSIZE ≤ MAXVA) (ha : pa % PGSIZE = 0) (hlt : pa + k * PGSIZE ≤ 2 ^ 56)
    (hf : IsFlags perm) :
    T'.mapping = extend T.mapping (v * PGSIZE) (k * PGSIZE) pa (perm ||| PTE_V) := by
  funext a
  simp only [PageTable.mapping, extend]
  by_cases hal : a % PGSIZE = 0
  · have ha' := aligned_eq hal
    by_cases hin : v * PGSIZE ≤ a ∧ a < v * PGSIZE + k * PGSIZE
    · have hu : v ≤ pageOf a ∧ pageOf a < v + k := by
        unfold pageOf PGSIZE at *
        omega
      have hsub : a - v * PGSIZE = (pageOf a - v) * PGSIZE := by
        unfold pageOf PGSIZE at *
        omega
      have hva : a < MAXVA := by
        unfold PGSIZE at *
        omega
      rw [if_pos ⟨hal, hva⟩, if_pos ⟨hal, hin⟩, h, mapLeaves, if_pos hu, Option.bind_some,
        target_leafEntry _ _ hf, hsub]
      · unfold PGSIZE at *
        omega
      · unfold PGSIZE at *
        omega
    · have hu : ¬(v ≤ pageOf a ∧ pageOf a < v + k) := by
        unfold pageOf PGSIZE at *
        omega
      rw [if_neg (c := _ ∧ _ ∧ _) fun hc => hin hc.2, h, mapLeaves, if_neg hu]
  · simp only [hal, false_and, if_false]

omit [Layout] in
/-- The translation that cleared leaves stand for. -/
lemma PageTable.mapping_clearLeaves {v n : ℕ} (h : T'.leaf = clearLeaves T.leaf v n) :
    T'.mapping = remove T.mapping (v * PGSIZE) (n * PGSIZE) := by
  funext a
  simp only [PageTable.mapping, remove]
  by_cases hal : a % PGSIZE = 0 ∧ a < MAXVA
  · rw [if_pos hal, if_pos hal, h, clearLeaves]
    have hiff : (v ≤ pageOf a ∧ pageOf a < v + n) ↔
        (v * PGSIZE ≤ a ∧ a < v * PGSIZE + n * PGSIZE) := by
      have := hal.1
      unfold pageOf PGSIZE at *
      omega
    by_cases hin : v ≤ pageOf a ∧ pageOf a < v + n
    · rw [if_pos hin, if_pos (hiff.mp hin)]
      rfl
    · rw [if_neg hin, if_neg fun hc => hin (hiff.mpr hc)]
  · rw [if_neg hal, if_neg hal, ite_self]

omit [Layout] in
/-- The pages that leaves refer to, read off the translation. -/
lemma PageTable.mappedPages_mapping (T : PageTable) {v n : ℕ} (hmax : (v + n) * PGSIZE ≤ MAXVA) :
    mappedPages T.mapping (v * PGSIZE) n = leafPages T.leaf v (v + n) := by
  have himage : Finset.Ico v (v + n) = (Finset.range n).image fun i => v + i := by
    ext u
    simp only [Finset.mem_Ico, Finset.mem_image, Finset.mem_range]
    constructor
    · rintro ⟨h₁, h₂⟩
      exact ⟨u - v, by omega, by omega⟩
    · rintro ⟨i, hi, rfl⟩
      omega
  rw [leafPages, himage, gather_image fun a b hab => Nat.add_left_cancel hab, mappedPages]
  refine gather_congr fun i hi => ?_
  have hi' := Finset.mem_range.mp hi
  have hva : v * PGSIZE + i * PGSIZE = (v + i) * PGSIZE := (Nat.add_mul _ _ _).symm
  have hlt : (v + i) * PGSIZE < MAXVA := by
    unfold PGSIZE at *
    omega
  rw [hva, PageTable.mapping, if_pos ⟨Nat.mul_mod_left _ _, hlt⟩, pageOf_mul]
  cases hl : T.leaf (v + i) with
  | none => rfl
  | some e =>
    rw [Option.bind_some, Pte.target, if_pos (T.leaf_valid _ e hl)]
    rfl

/-! ## The main result -/

namespace Tree

section

variable (h : Tree m root R)
include h

lemma lookup {va : ℕ} (hva : va < MAXVA) :
    Returns (walk root va false) (fun r m' => m' = m ∧ r = m.slot root va ∧
      m.mapping root (pgRoundDown va) =
        r.bind fun s => Pte.target ((m.page s.1).get64 (8 * s.2))) m := by
  obtain ⟨T, rfl, ho⟩ := h
  refine (ho.walk_false hva).imp ?_
  rintro r m' ⟨hr, hm⟩
  refine ⟨hm, by rw [hr, ho.slot], ?_⟩
  have hround : pgRoundDown va % PGSIZE = 0 ∧ pgRoundDown va < MAXVA := by
    unfold pgRoundDown PGSIZE at *
    omega
  have hpage : pageOf (pgRoundDown va) = pageOf va := pageOf_mul _
  rw [ho.mapping, PageTable.mapping, if_pos hround, hpage, hr]
  cases hlow : T.low (px 2 va) (px 1 va) with
  | none => rw [Owns.leaf_eq_none T hva hlow]; rfl
  | some p =>
    rw [Option.map_some, Option.bind_some, ho.getPte_low hva hlow]
    cases T.leaf (pageOf va) with
    | none => rfl
    | some e => rfl

lemma alloc {va : ℕ} (hva : va < MAXVA) :
    Returns (walk root va true) (fun r m' => Tree m' root R ∧ m'.mapping root = m.mapping root ∧
      ∀ s, r = some s → m'.slot root va = some s) m := by
  obtain ⟨T, rfl, ho⟩ := h
  refine (ho.walk_true hva).imp ?_
  rintro r m' ⟨T', hr', hl', ho', _, hloc⟩
  refine ⟨⟨T', hr', ho'⟩, ?_, ?_⟩
  · rw [← hr', ho'.mapping, PageTable.mapping_congr hl', hr', ho.mapping]
  · intro s hs
    obtain ⟨hlow, hk⟩ := hloc s hs
    rw [← hr', ho'.slot, hlow, ← hk]
    rfl

lemma map {va size pa : ℕ} (hva : va % PGSIZE = 0) (hsize : size % PGSIZE = 0)
    (hpos : 0 < size) (hmax : va + size ≤ MAXVA) (hpa : pa % PGSIZE = 0) (hlt : pa + size ≤ 2 ^ 56)
    (hf : IsFlags perm) (hnone : ∀ a, va ≤ a → a < va + size → m.mapping root a = none) :
    Returns (mappages root va size pa perm) (fun r m' => Tree m' root R ∧
      ∃ done, (r = 0 ∧ done = size ∨ r = -1 ∧ done % PGSIZE = 0 ∧ done < size) ∧
        m'.mapping root = extend (m.mapping root) va done pa (perm ||| PTE_V)) m := by
  obtain ⟨T, rfl, ho⟩ := h
  obtain ⟨v, rfl⟩ : ∃ v, va = v * PGSIZE := ⟨_, aligned_eq hva⟩
  obtain ⟨n, rfl⟩ : ∃ n, size = n * PGSIZE := ⟨_, aligned_eq hsize⟩
  rw [← Nat.add_mul] at hmax
  have hleaf : ∀ u, v ≤ u → u < v + n → T.leaf u = none := fun u h₁ h₂ => by
    have hu := hnone (u * PGSIZE) (Nat.mul_le_mul_right _ h₁) (by unfold PGSIZE; omega)
    have hlt : u * PGSIZE < MAXVA := by
      unfold PGSIZE at *
      omega
    rw [ho.mapping, PageTable.mapping, if_pos ⟨Nat.mul_mod_left _ _, hlt⟩, pageOf_mul] at hu
    cases hl : T.leaf u with
    | none => rfl
    | some e =>
      rw [hl, Option.bind_some, Pte.target, if_pos (T.leaf_valid _ e hl)] at hu
      exact absurd hu (by simp)
  simp only [Returns, mappages]
  rw [wp_ite_neg (by simp), wp_ite_neg (by simp), wp_ite_neg (by omega),
    Nat.mul_div_cancel n (by decide)]
  refine (ho.mappagesLoop n hmax hleaf).imp ?_
  rintro r m' ⟨T', k, hr', ho', hres, hl'⟩
  refine ⟨⟨T', hr', ho'⟩, k * PGSIZE, ?_, ?_⟩
  · refine hres.imp (fun hr => ⟨hr.1, by rw [hr.2]⟩) fun hr => ⟨hr.1, Nat.mul_mod_left _ _, ?_⟩
    exact Nat.mul_lt_mul_of_pos_right hr.2 (by decide)
  · have hk : k ≤ n := by omega
    rw [← hr', ho'.mapping, hr', ho.mapping]
    refine PageTable.mapping_mapLeaves hl' ?_ hpa ?_ hf
    · exact (Nat.mul_le_mul_right _ (by omega)).trans hmax
    · exact (Nat.add_le_add_left (Nat.mul_le_mul_right _ hk) _).trans hlt

lemma unmap {va n : ℕ} (hva : va % PGSIZE = 0) (hmax : va + n * PGSIZE ≤ MAXVA) :
    Returns (uvmunmap root va n false) (fun _ m' => Tree m' root R ∧
      m'.mapping root = remove (m.mapping root) va (n * PGSIZE)) m := by
  obtain ⟨T, rfl, ho⟩ := h
  obtain ⟨v, rfl⟩ : ∃ v, va = v * PGSIZE := ⟨_, aligned_eq hva⟩
  rw [← Nat.add_mul] at hmax
  refine (Owns.uvmunmap (R := R) false (by simpa using ho) hmax).imp ?_
  rintro _ m' ⟨T', hr, hl, ho', _⟩
  have hr' := PageTable.root_eq hr
  refine ⟨⟨T', hr', ho'⟩, ?_⟩
  rw [← hr', ho'.mapping, hr', ho.mapping, PageTable.mapping_clearLeaves hl]

lemma free {R' : Multiset ℕ} {va n : ℕ} (hva : va % PGSIZE = 0)
    (hmax : va + n * PGSIZE ≤ MAXVA) (hR : R = mappedPages (m.mapping root) va n + R') :
    Returns (uvmunmap root va n true) (fun _ m' => Tree m' root R' ∧
      m'.mapping root = remove (m.mapping root) va (n * PGSIZE) ∧
      ∃ S, m.Used (mappedPages (m.mapping root) va n + S) ∧ m'.Used S) m := by
  obtain ⟨T, rfl, ho⟩ := h
  obtain ⟨v, rfl⟩ : ∃ v, va = v * PGSIZE := ⟨_, aligned_eq hva⟩
  rw [← Nat.add_mul] at hmax
  rw [ho.mapping, T.mappedPages_mapping hmax] at *
  subst hR
  refine (Owns.uvmunmap (R := R') true (by simpa using ho) hmax).imp ?_
  rintro _ m' ⟨T', hr, hl, ho', _⟩
  have hr' := PageTable.root_eq hr
  refine ⟨⟨T', hr', ho'⟩, ?_, T.tablePages + R', ?_, ?_⟩
  · rw [← hr', ho'.mapping, PageTable.mapping_clearLeaves hl]
  · have hu := ho.used
    rwa [add_left_comm] at hu
  · have hu := ho'.used
    rwa [PageTable.tablePages, hr] at hu

/-- The indices of two different pages below `MAXVA` differ. -/
lemma slots {va va' : ℕ} {s : ℕ × ℕ} (ha : va % PGSIZE = 0)
    (ha' : va' % PGSIZE = 0) (hva : va < MAXVA) (hva' : va' < MAXVA)
    (hs : m.slot root va = some s) (hs' : m.slot root va' = some s) : va = va' := by
  obtain ⟨T, rfl, ho⟩ := h
  rw [ho.slot, Option.map_eq_some_iff] at hs hs'
  obtain ⟨p, hp, hps⟩ := hs
  obtain ⟨q, hq, hqs⟩ := hs'
  obtain ⟨hpq, hk⟩ := Prod.mk.inj (hps.trans hqs.symm)
  subst hpq
  -- one page of the table is at one place in it
  have hpos := PageTable.node_inj ho.nodup_tablePages (x := .low _ _) (y := .low _ _) hp hq
  obtain ⟨h₂, h₁⟩ := TPos.low.inj hpos
  have hv := vpn_px hva
  rw [h₂, h₁, hk, vpn_px hva'] at hv
  rw [aligned_eq ha, aligned_eq ha', hv]

end

end Tree

/-- **The page table is a map.**  On every well-formed table the operations act on its translation as
operations on a partial function, no two addresses share a slot, and an entry gives back the address
and the flags it was made of. -/
theorem page_table_is_map (h : Tree m root R) : PageTableMap m root R ∧
    ∀ (pa : ℕ) (flags : Pte), pa % PGSIZE = 0 → pa < 2 ^ 56 → flags.toNat < 2 ^ 10 →
      pte2pa (pa2pte pa ||| flags) = pa where
  left :=
    { lookup := fun _ hva => h.lookup hva
      alloc := fun _ hva => h.alloc hva
      map := fun _ _ _ _ h₁ h₂ h₃ h₄ h₅ h₆ h₇ h₈ => h.map h₁ h₂ h₃ h₄ h₅ h₆ h₇ h₈
      unmap := fun _ _ h₁ h₂ => h.unmap h₁ h₂
      free := fun _ _ _ h₁ h₂ h₃ => h.free h₁ h₂ h₃
      slots := fun _ _ _ h₁ h₂ h₃ h₄ h₅ h₆ => h.slots h₁ h₂ h₃ h₄ h₅ h₆ }
  right := fun _ _ ha hlt hf => pte2pa_pa2pte_or ha hlt hf

end Tables

section Witness

local instance layoutMap : Layout := smallLayout

/-- The table of the first process on the small machine, with the trampoline and the trapframe. -/
theorem page_table_is_map_proc : ∃ tf m₁ root m, kalloc smallMem = .ok (tf, m₁) ∧
    procPagetable tf m₁ = .ok (root, m) ∧
    m.mapping root TRAMPOLINE = some (KERNBASE, PTE_R ||| PTE_X ||| PTE_V) ∧
    m.mapping root TRAPFRAME = some (tf, PTE_R ||| PTE_W ||| PTE_V) ∧
    ∃ R, PageTableMap m root R ∧ ∀ (pa : ℕ) (flags : Pte), pa % PGSIZE = 0 → pa < 2 ^ 56 →
      flags.toNat < 2 ^ 10 → pte2pa (pa2pte pa ||| flags) = pa := by
  have hrun : (kalloc smallMem).bind (fun a => (procPagetable a.1 a.2).map fun b =>
      (a.1, b.1, b.2.mapping b.1 TRAMPOLINE, b.2.mapping b.1 TRAPFRAME)) =
      .ok (PHYSTOP - 32 * PGSIZE, PHYSTOP - 31 * PGSIZE,
        some (KERNBASE, PTE_R ||| PTE_X ||| PTE_V),
        some (PHYSTOP - 32 * PGSIZE, PTE_R ||| PTE_W ||| PTE_V)) := by
    decide +kernel
  obtain ⟨tf, m₁, hm₁, hres₁⟩ := (kalloc_spec smallMem_used).exists_eq
  obtain ⟨S, hused⟩ : ∃ S, m₁.Used S := by
    rcases hres₁ with ⟨-, hu, -⟩ | ⟨-, hu, -⟩ <;> exact ⟨_, hu⟩
  obtain ⟨root, m, hm, -, hres⟩ := (hused.procPagetable : Returns (procPagetable tf) _ m₁).exists_eq
  simp only [hm₁, hm, Except.bind, Except.map, Except.ok.injEq, Prod.mk.injEq] at hrun
  obtain ⟨rfl, rfl, htramp, htf⟩ := hrun
  rcases hres with ⟨h₀, -⟩ | ⟨-, T, hroot, hs, -⟩
  · exact absurd h₀ (by decide)
  · exact ⟨_, m₁, _, m, hm₁, hm, htramp, htf, _, page_table_is_map ⟨T, hroot, hs⟩⟩

end Witness

end Xv6
