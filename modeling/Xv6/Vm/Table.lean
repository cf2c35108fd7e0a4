import Xv6.Vm.Basic
import Xv6.Lib.Account

/-!
# Page tables as maps

The abstract view of the memory that `Xv6.Vm.Basic` works on.  A user page table is a map from
virtual page numbers to leaf entries, together with the pages its upper levels occupy
(`PageTable`); `PageTable.Repr` says that memory holds such a table.  The allocator is a list of
free pages, and `Mem.Used m S` says that the pages of `S`, and no others, are out of it: with the
free list they make up the physical pages, each of them once.

`Owns m T R` puts the two together: memory holds table `T`, whose own pages together with the rest
`R` are the pages in use.  Since no page is counted twice, a store into a page of `T` is invisible
to everything in `R`, and the converse.
-/

namespace Xv6

open Finset Function

/-! ## Entries -/

/-- A mask within the ten flag bits of an entry. -/
def IsFlags (f : Pte) : Prop := f.toNat < 1024

instance (f : Pte) : Decidable (IsFlags f) := inferInstanceAs (Decidable (_ < _))

lemma pa2pte_and {pa : ℕ} {f : Pte} (hf : IsFlags f) : pa2pte pa &&& f = 0#64 := by
  ext i hi
  have hbit : 10 ≤ i → f[i] = false := by
    intro h10
    rw [← BitVec.getLsbD_eq_getElem hi, BitVec.getLsbD]
    have h : 2 ^ 10 ≤ 2 ^ i := Nat.pow_le_pow_right (by decide) h10
    exact Nat.testBit_lt_two_pow (lt_of_lt_of_le hf h)
  by_cases h10 : i < 10
  · simp [pa2pte, h10]
  · simp [hbit (by omega)]

lemma has_pa2pte_or {pa : ℕ} {f g : Pte} (hg : IsFlags g) :
    Pte.has (pa2pte pa ||| f) g = Pte.has f g := by
  unfold Pte.has
  rw [BitVec.and_comm, BitVec.and_or_distrib_left, BitVec.and_comm g, pa2pte_and hg,
    BitVec.zero_or, BitVec.and_comm]

lemma pte2pa_pa2pte_or {pa : ℕ} {f : Pte} (ha : pa % PGSIZE = 0) (hlt : pa < 2 ^ 56)
    (hf : IsFlags f) : pte2pa (pa2pte pa ||| f) = pa := by
  have hz : f >>> 10 = 0#64 := by
    apply BitVec.eq_of_toNat_eq
    unfold IsFlags at hf
    simp only [BitVec.toNat_ushiftRight, Nat.shiftRight_eq_div_pow, BitVec.toNat_ofNat]
    omega
  unfold pte2pa pa2pte
  unfold PGSIZE at ha
  rw [BitVec.ushiftRight_or_distrib, hz, BitVec.or_zero]
  simp only [BitVec.toNat_ushiftRight, BitVec.toNat_shiftLeft, Nat.shiftRight_eq_div_pow,
    Nat.shiftLeft_eq, BitVec.toNat_ofNat]
  omega

lemma pteFlags_pa2pte_or {pa : ℕ} {f : Pte} (hf : IsFlags f) : pteFlags (pa2pte pa ||| f) = f := by
  unfold pteFlags
  rw [BitVec.and_comm, BitVec.and_or_distrib_left, BitVec.and_comm _ (pa2pte pa),
    pa2pte_and (by decide), BitVec.zero_or, BitVec.and_comm]
  apply BitVec.eq_of_toNat_eq
  rw [BitVec.toNat_and]
  exact (Nat.and_two_pow_sub_one_eq_mod f.toNat 10).trans (Nat.mod_eq_of_lt hf)

/-! ## Physical pages and the allocator -/

section Physical

variable [Layout]

open Layout

/-- The pages in `[PGROUNDUP(end), PHYSTOP)`, which the allocator hands out. -/
def physPages : Multiset ℕ :=
  (Ico (pgRoundUp kend / PGSIZE) (PHYSTOP / PGSIZE)).val.map (· * PGSIZE)

lemma nodup_physPages : physPages.Nodup :=
  Multiset.Nodup.map (fun a b h => Nat.eq_of_mul_eq_mul_right (by decide) h) (Finset.nodup _)

/-- There are at most 32768 of them. -/
lemma card_physPages_le : Multiset.card physPages ≤ 32768 := by
  have h₁ := le_trampoline
  have h₂ := trampoline_le
  have h₃ := kend_le
  rw [physPages, Multiset.card_map]
  change #(Ico _ _) ≤ _
  rw [Nat.card_Ico]
  unfold pgRoundUp PHYSTOP KERNBASE PGSIZE at *
  omega

structure IsPhys (pg : ℕ) : Prop where
  aligned : pg % PGSIZE = 0
  le : kend ≤ pg
  lt : pg < PHYSTOP

lemma isPhys_of_mem {pg : ℕ} (h : pg ∈ physPages) : IsPhys pg := by
  obtain ⟨n, hn, rfl⟩ := Multiset.mem_map.mp h
  obtain ⟨hlo, hhi⟩ := Finset.mem_Ico.mp (Finset.mem_val.mp hn)
  have h₃ := kend_le
  refine ⟨Nat.mul_mod_left .., ?_, ?_⟩
  all_goals
    unfold pgRoundUp PHYSTOP KERNBASE PGSIZE at *
    omega

lemma IsPhys.pos {pg : ℕ} (h : IsPhys pg) : 0 < pg := by
  have h₁ := le_trampoline
  have h₂ := trampoline_le
  have h₃ := h.le
  unfold KERNBASE at h₁
  omega

lemma IsPhys.lt_two_pow {pg : ℕ} (h : IsPhys pg) : pg < 2 ^ 32 := by
  have := h.lt
  unfold PHYSTOP KERNBASE at this
  omega

end Physical

/-- The free list, as linked through the free pages from `head` on. -/
def FreeList (page : ℕ → Bytes) : ℕ → List ℕ → Prop
  | head, [] => head = 0
  | head, p :: l => head = p ∧ FreeList page ((page p).get64 0).toNat l

instance FreeList.decidable (page : ℕ → Bytes) : ∀ head l, Decidable (FreeList page head l)
  | head, [] => inferInstanceAs (Decidable (head = 0))
  | head, p :: l =>
    have := FreeList.decidable page ((page p).get64 0).toNat l
    inferInstanceAs (Decidable (head = p ∧ FreeList page ((page p).get64 0).toNat l))

lemma FreeList.congr {page page' : ℕ → Bytes} {head : ℕ} {l : List ℕ}
    (h : FreeList page head l) (hpage : ∀ p ∈ l, page' p = page p) :
    FreeList page' head l := by
  induction l generalizing head with
  | nil => exact h
  | cons p l ih =>
    refine ⟨h.1, ?_⟩
    rw [hpage p List.mem_cons_self]
    exact ih h.2 fun q hq => hpage q (List.mem_cons_of_mem p hq)

lemma Mem.write_page_of_ne {m : Mem} {p q : ℕ} (b : Bytes) (h : q ≠ p) :
    (m.write p b).page q = m.page q := update_of_ne h ..

@[simp] lemma Mem.write_page_self (m : Mem) (p : ℕ) (b : Bytes) : (m.write p b).page p = b :=
  update_self ..

@[simp] lemma Mem.write_freelist (m : Mem) (p : ℕ) (b : Bytes) :
    (m.write p b).freelist = m.freelist := rfl

section Used

variable [Layout] {m m' : Mem} {S : Multiset ℕ} {pg : ℕ}

/-- The pages of `S`, and no others, are out of the allocator. -/
def Mem.Used (m : Mem) (S : Multiset ℕ) : Prop :=
  ∃ l, FreeList m.page m.freelist l ∧ (l : Multiset ℕ) + S = physPages

section

variable (h : m.Used S)
include h

lemma Mem.Used.isPhys (hpg : pg ∈ S) : IsPhys pg := by
  obtain ⟨l, -, hl⟩ := h
  exact isPhys_of_mem (hl ▸ Multiset.mem_add.mpr (Or.inr hpg))

lemma Mem.Used.nodup : S.Nodup := by
  obtain ⟨l, -, hl⟩ := h
  have hnd := nodup_physPages
  rw [← hl] at hnd
  exact (Multiset.nodup_add.mp hnd).2.1

lemma Mem.Used.card_le : Multiset.card S ≤ 32768 := by
  obtain ⟨l, -, hl⟩ := h
  have hcard := card_physPages_le
  rw [← hl, Multiset.card_add] at hcard
  omega

/-- A change of the memory that leaves the free pages alone. -/
lemma Mem.Used.congr (hfree : m'.freelist = m.freelist)
    (hpage : ∀ pg, pg ∉ S → m'.page pg = m.page pg) : m'.Used S := by
  obtain ⟨l, hl, hsum⟩ := h
  refine ⟨l, ?_, hsum⟩
  rw [hfree]
  refine hl.congr fun p hp => hpage p fun hS => ?_
  have hnd := nodup_physPages
  rw [← hsum] at hnd
  exact Multiset.disjoint_left.mp (Multiset.nodup_add.mp hnd).2.2 hp hS

/-- A store into a page in use. -/
lemma Mem.Used.write (hpg : pg ∈ S) (b : Bytes) : (m.write pg b).Used S :=
  h.congr rfl fun _ hq => update_of_ne (ne_of_mem_of_not_mem hpg hq).symm ..

/-- `kalloc` finds no memory, or takes a page off the free list. -/
lemma kalloc_spec : Returns kalloc (fun r m' => (r = 0 ∧ m'.Used S ∧ m'.page = m.page) ∨
    (IsPhys r ∧ m'.Used (r ::ₘ S) ∧ ∀ q ≠ r, m'.page q = m.page q)) m := by
  unfold kalloc
  simp only [wp_bind, wp_get, wp_set]
  obtain ⟨l, hl, hsum⟩ := h
  refine wp_ite.mpr ⟨fun _ => Or.inl ⟨rfl, ⟨l, hl, hsum⟩, rfl⟩, fun _ => ?_⟩
  cases l with
  | nil =>
    have hl : m.freelist = 0 := hl
    rw [wp_ite_neg (by simpa using hl)]
    exact Or.inl ⟨hl, ⟨[], hl, hsum⟩, rfl⟩
  | cons p l =>
    have hp : m.freelist = p := hl.1
    have hphys : IsPhys p := isPhys_of_mem (by rw [← hsum]; simp)
    have hnd : ((p :: l : List ℕ) : Multiset ℕ).Nodup := by
      have hnd := nodup_physPages
      rw [← hsum] at hnd
      exact (Multiset.nodup_add.mp hnd).1
    have hnotin : p ∉ l := (List.nodup_cons.mp (Multiset.coe_nodup.mp hnd)).1
    rw [wp_ite_pos (by rw [hp]; exact hphys.pos.ne')]
    simp only [memset, wp_bind, wp_modify, wp_pure, hp]
    refine Or.inr ⟨hphys, ⟨l, ?_, ?_⟩, fun q hq => Mem.write_page_of_ne _ hq⟩
    · exact hl.2.congr fun q hq => Mem.write_page_of_ne _ fun heq => hnotin (heq ▸ hq)
    · rw [← hsum, ← Multiset.cons_coe, Multiset.add_cons, Multiset.cons_add]

end

/-- `kfree` puts a page in use back on the free list. -/
lemma kfree_spec (h : m.Used (pg ::ₘ S)) : Returns (kfree pg) (fun _ m' =>
    m'.Used S ∧ ∀ q ≠ pg, m'.page q = m.page q) m := by
  have hphys : IsPhys pg := h.isPhys (Multiset.mem_cons_self pg S)
  obtain ⟨ha, hle, hlt⟩ := hphys
  rw [Returns, kfree]
  dsimp only
  rw [wp_ite_neg (by omega)]
  simp only [memset, wp_bind, wp_modify]
  refine ⟨?_, fun q hq => ?_⟩
  · obtain ⟨l, hl, hsum⟩ := h
    have hnd := nodup_physPages
    rw [← hsum, Multiset.add_cons] at hnd
    have hnotin : pg ∉ l := fun hmem =>
      (Multiset.nodup_cons.mp hnd).1 (Multiset.mem_add.mpr (Or.inl hmem))
    have hhead : m.freelist < 2 ^ 64 := by
      cases l with
      | nil =>
        have hl : m.freelist = 0 := hl
        omega
      | cons p l =>
        have hp : IsPhys p := isPhys_of_mem (by rw [← hsum]; simp)
        have hlt := hp.lt_two_pow
        have heq : m.freelist = p := hl.1
        omega
    refine ⟨pg :: l, ⟨rfl, ?_⟩, ?_⟩
    · simp only [Mem.write_page_self, Bytes.get64_put64, BitVec.toNat_ofNat, Mem.write_freelist,
        Nat.mod_eq_of_lt hhead]
      refine hl.congr fun q hq => ?_
      have hne : q ≠ pg := ne_of_mem_of_not_mem hq hnotin
      rw [Mem.write_page_of_ne _ hne, Mem.write_page_of_ne _ hne]
    · rw [← hsum, ← Multiset.cons_coe, Multiset.add_cons, Multiset.cons_add]
  · rw [Mem.write_page_of_ne _ hq, Mem.write_page_of_ne _ hq]

end Used

/-! ## Page tables -/

/-- The places of the page-table pages of one table, by the indices on the way to them. -/
inductive TPos
  | root
  | mid (i : ℕ)
  | low (i j : ℕ)
  deriving DecidableEq

/-- The places with indices below `n`. -/
@[irreducible] def TPos.below (n : ℕ) : Finset TPos :=
  {.root} ∪ (range n).image .mid ∪ (range n ×ˢ range n).image fun p => .low p.1 p.2

@[simp] lemma TPos.root_mem_below {n : ℕ} : TPos.root ∈ TPos.below n := by
  simp [TPos.below]

@[simp] lemma TPos.mid_mem_below {n i : ℕ} : TPos.mid i ∈ TPos.below n ↔ i < n := by
  simp [TPos.below]

@[simp] lemma TPos.low_mem_below {n i j : ℕ} : TPos.low i j ∈ TPos.below n ↔ i < n ∧ j < n := by
  simp [TPos.below]

/-- The virtual page number with the given indices. -/
def vpn (i j k : ℕ) : ℕ := (i * 512 + j) * 512 + k

/-- A page table: its pages, and the valid leaf entries by virtual page number. -/
structure PageTable where
  root : ℕ
  mid : ℕ → Option ℕ
  low : ℕ → ℕ → Option ℕ
  leaf : ℕ → Option Pte
  mid_lt : ∀ i, mid i ≠ none → i < 512
  low_lt : ∀ i j, low i j ≠ none → j < 512 ∧ mid i ≠ none
  leaf_low : ∀ v, leaf v ≠ none → low (v / 2 ^ 18) (v / 2 ^ 9 % 512) ≠ none
  leaf_valid : ∀ v e, leaf v = some e → Pte.has e PTE_V = true

/-- The pages that the leaves with page numbers in `[a, b)` refer to. -/
def leafPages (leaf : ℕ → Option Pte) (a b : ℕ) : Multiset ℕ :=
  gather (Ico a b) fun v => (leaf v).map pte2pa

/-- The entry that points to a page of the next level. -/
def tableEntry : Option ℕ → Pte
  | none => 0
  | some p => pa2pte p ||| PTE_V

namespace PageTable

variable (T : PageTable)

/-- The page at a place. -/
def node : TPos → Option ℕ
  | .root => some T.root
  | .mid i => T.mid i
  | .low i j => T.low i j

/-- The pages of the table itself. -/
def tablePages : Multiset ℕ := gather (TPos.below 512) T.node

/-- Memory holds the table. -/
structure Repr (page : ℕ → Bytes) : Prop where
  root : ∀ i < 512, (page T.root).get64 (8 * i) = tableEntry (T.mid i)
  mid : ∀ i p, T.mid i = some p → ∀ j < 512, (page p).get64 (8 * j) = tableEntry (T.low i j)
  low : ∀ i j p, T.low i j = some p → ∀ k < 512,
    (page p).get64 (8 * k) = (T.leaf (vpn i j k)).getD 0

variable {T}

lemma low_lt_both {i j : ℕ} (h : T.low i j ≠ none) : i < 512 ∧ j < 512 :=
  ⟨T.mid_lt i (T.low_lt i j h).2, (T.low_lt i j h).1⟩

lemma node_mem_below {x : TPos} {p : ℕ} (h : T.node x = some p) : x ∈ TPos.below 512 := by
  have hne : T.node x ≠ none := by simp [h]
  cases x with
  | root => exact TPos.root_mem_below
  | mid i => exact TPos.mid_mem_below.mpr (T.mid_lt i hne)
  | low i j => exact TPos.low_mem_below.mpr (low_lt_both hne)

lemma mem_tablePages {pg : ℕ} : pg ∈ T.tablePages ↔ ∃ x, T.node x = some pg := by
  rw [tablePages, mem_gather]
  constructor
  · rintro ⟨x, -, hx⟩
    exact ⟨x, hx⟩
  · rintro ⟨x, hx⟩
    exact ⟨x, node_mem_below hx, hx⟩

lemma node_inj (h : T.tablePages.Nodup) {x y : TPos} {p : ℕ} (hx : T.node x = some p)
    (hy : T.node y = some p) : x = y :=
  gather_inj h (node_mem_below hx) (node_mem_below hy) hx hy

/-- What memory holds of a table depends on the table's own pages only. -/
lemma Repr.congr {page page' : ℕ → Bytes} (h : T.Repr page)
    (hpage : ∀ pg ∈ T.tablePages, page' pg = page pg) : T.Repr page' := by
  refine ⟨fun i hi => ?_, fun i p hp j hj => ?_, fun i j p hp k hk => ?_⟩
  · rw [hpage T.root (mem_tablePages.mpr ⟨.root, rfl⟩)]
    exact h.root i hi
  · rw [hpage p (mem_tablePages.mpr ⟨.mid i, hp⟩)]
    exact h.mid i p hp j hj
  · rw [hpage p (mem_tablePages.mpr ⟨.low i j, hp⟩)]
    exact h.low i j p hp k hk

/-! ### Changes of a table -/

/-- A new page of the middle level. -/
def addMid (T : PageTable) (i p : ℕ) (hi : i < 512) : PageTable where
  root := T.root
  mid := update T.mid i (some p)
  low := T.low
  leaf := T.leaf
  mid_lt := by
    intro i' h
    by_cases hii : i' = i
    · exact hii ▸ hi
    · exact T.mid_lt i' (by rwa [update_of_ne hii] at h)
  low_lt := by
    intro i' j h
    refine ⟨(T.low_lt i' j h).1, ?_⟩
    by_cases hii : i' = i
    · subst hii
      simp
    · rw [update_of_ne hii]
      exact (T.low_lt i' j h).2
  leaf_low := T.leaf_low
  leaf_valid := T.leaf_valid

/-- A new page of the lowest level. -/
def addLow (T : PageTable) (i j p : ℕ) (hj : j < 512) (hmid : T.mid i ≠ none) : PageTable where
  root := T.root
  mid := T.mid
  low := fun i' j' => if i' = i ∧ j' = j then some p else T.low i' j'
  leaf := T.leaf
  mid_lt := T.mid_lt
  low_lt := by
    intro i' j' h
    by_cases heq : i' = i ∧ j' = j
    · obtain ⟨rfl, rfl⟩ := heq
      exact ⟨hj, hmid⟩
    · exact T.low_lt i' j' (by simpa [heq] using h)
  leaf_low := by
    intro v h
    split
    · simp
    · exact T.leaf_low v h
  leaf_valid := T.leaf_valid

/-- Set or clear the leaf for a page number. -/
def setLeaf (T : PageTable) (v : ℕ) (o : Option Pte)
    (hlow : T.low (v / 2 ^ 18) (v / 2 ^ 9 % 512) ≠ none)
    (ho : ∀ e, o = some e → Pte.has e PTE_V = true) : PageTable where
  root := T.root
  mid := T.mid
  low := T.low
  leaf := update T.leaf v o
  mid_lt := T.mid_lt
  low_lt := T.low_lt
  leaf_low := by
    intro v' h
    by_cases hvv : v' = v
    · exact hvv ▸ hlow
    · exact T.leaf_low v' (by rwa [update_of_ne hvv] at h)
  leaf_valid := by
    intro v' e h
    by_cases hvv : v' = v
    · subst hvv
      exact ho e (by rwa [update_self] at h)
    · exact T.leaf_valid v' e (by rwa [update_of_ne hvv] at h)

lemma root_eq {T' : PageTable} (h : T'.node = T.node) : T'.root = T.root :=
  Option.some.inj (congrFun h .root)

lemma node_addMid {i p : ℕ} (hi : i < 512) :
    (T.addMid i p hi).node = update T.node (.mid i) (some p) := by
  funext x
  by_cases hx : x = .mid i
  · subst hx
    simp [node, addMid]
  · rw [update_of_ne hx]
    cases x with
    | root => rfl
    | mid i' => exact update_of_ne (fun h => hx (by rw [h])) ..
    | low i' j' => rfl

lemma node_addLow {i j p : ℕ} (hj : j < 512) (hmid : T.mid i ≠ none) :
    (T.addLow i j p hj hmid).node = update T.node (.low i j) (some p) := by
  funext x
  by_cases hx : x = .low i j
  · subst hx
    simp [node, addLow]
  · rw [update_of_ne hx]
    cases x with
    | root => rfl
    | mid i' => rfl
    | low i' j' =>
      have hne : ¬(i' = i ∧ j' = j) := fun h => hx (by rw [h.1, h.2])
      simp [node, addLow, hne]

end PageTable

/-! ## A small machine -/

/-- A kernel that leaves 32 pages to the allocator. -/
@[reducible] def smallLayout : Layout where
  kend := PHYSTOP - 32 * PGSIZE
  trampoline := KERNBASE
  proc := KERNBASE + PGSIZE
  trampoline_aligned := by decide
  le_trampoline := by decide
  trampoline_le := by decide
  kend_le := by decide

/-- All of them are free, and `kalloc` fails only when they are gone. -/
def smallMem : Mem where
  page pg := Bytes.put64 (fun _ => 0) 0
    (if pg + PGSIZE < PHYSTOP then BitVec.ofNat 64 (pg + PGSIZE) else 0)
  freelist := PHYSTOP - 32 * PGSIZE
  fails _ := false

lemma smallMem_used : @Mem.Used smallLayout smallMem 0 := by
  refine ⟨(List.range 32).map fun i => PHYSTOP - 32 * PGSIZE + i * PGSIZE, ?_, ?_⟩
  all_goals decide +kernel

end Xv6
