import Xv6.Vm.Table

/-!
# Walking and changing a page table

What `walk` and `mappages` do to a table that memory holds: the specifications from which those of
all other functions are derived.  They change only pages of the table and pages from the free list.
-/

namespace Xv6

open Finset
open Function (update update_self update_of_ne)

section Entries

lemma isFlags_PTE_V : IsFlags PTE_V := by decide

@[simp] lemma has_zero (f : Pte) : Pte.has 0#64 f = false := by simp [Pte.has]

lemma has_V_or_V (e : Pte) : Pte.has (e ||| PTE_V) PTE_V = true := by
  have h : (e ||| PTE_V) &&& PTE_V ≠ 0 := by
    intro h
    have h0 := congrArg (fun x : Pte => x.getLsbD 0) h
    simp [PTE_V] at h0
  simpa [Pte.has] using h

@[simp] lemma tableEntry_has_V (o : Option ℕ) : Pte.has (tableEntry o) PTE_V = o.isSome := by
  cases o with
  | none => exact has_zero _
  | some p => exact has_V_or_V _

lemma getD_has_V (o : Option Pte) (ho : ∀ e, o = some e → Pte.has e PTE_V = true) :
    Pte.has (o.getD 0) PTE_V = o.isSome := by
  cases o with
  | none => exact has_zero _
  | some e => exact ho e rfl

lemma pte2pa_tableEntry [Layout] {p : ℕ} (hp : IsPhys p) : pte2pa (tableEntry (some p)) = p :=
  pte2pa_pa2pte_or hp.aligned (lt_trans hp.lt_two_pow (by decide)) isFlags_PTE_V

lemma get64_fill_zero (b : Bytes) {i : ℕ} (hi : i < 512) : (b.fill 0 PGSIZE 0).get64 (8 * i) = 0 := by
  have h : ∀ j < 4096, b.fill 0 PGSIZE 0 j = (fun _ => 0 : Bytes) j := by
    intro j hj
    exact Bytes.fill_of_mem ⟨Nat.zero_le j, by unfold PGSIZE; omega⟩
  rw [Bytes.get64_congr fun j _ _ => h j (by omega)]
  simp only [Bytes.get64, Bytes.get32, Bytes.get16]
  rfl

/-- The page number of an address. -/
abbrev pageOf (va : ℕ) : ℕ := va / PGSIZE

lemma px_two {va : ℕ} (h : va < MAXVA) : px 2 va = pageOf va / 2 ^ 18 ∧ px 2 va < 512 := by
  unfold MAXVA at h
  unfold px pageOf PGSIZE
  omega

lemma px_one (va : ℕ) : px 1 va = pageOf va / 2 ^ 9 % 512 ∧ px 1 va < 512 := by
  unfold px pageOf PGSIZE
  omega

lemma px_zero (va : ℕ) : px 0 va = pageOf va % 512 ∧ px 0 va < 512 := by
  unfold px pageOf PGSIZE
  omega

lemma vpn_px {va : ℕ} (h : va < MAXVA) : vpn (px 2 va) (px 1 va) (px 0 va) = pageOf va := by
  unfold MAXVA at h
  unfold vpn px pageOf PGSIZE
  omega

end Entries

variable [Layout] {m m' : Mem} {T : PageTable} {R S : Multiset ℕ}

/-- Memory holds the table `T`, and the pages of `T` and `R` are those in use. -/
structure Owns (m : Mem) (T : PageTable) (R : Multiset ℕ) : Prop where
  repr : T.Repr m.page
  used : m.Used (T.tablePages + R)

/-- The pages of `S`, and whatever is not the allocator's, hold what they held before. -/
structure Frame (m m' : Mem) (S : Multiset ℕ) : Prop where
  on : ∀ pg ∈ S, m'.page pg = m.page pg
  kernel : ∀ pg, ¬IsPhys pg → m'.page pg = m.page pg

lemma Frame.refl (m : Mem) (S : Multiset ℕ) : Frame m m S := ⟨fun _ _ => rfl, fun _ _ => rfl⟩

lemma Frame.trans {m₁ m₂ m₃ : Mem} (h : Frame m₁ m₂ S) (h' : Frame m₂ m₃ S) : Frame m₁ m₃ S :=
  ⟨fun pg hpg => (h'.on pg hpg).trans (h.on pg hpg),
    fun pg hpg => (h'.kernel pg hpg).trans (h.kernel pg hpg)⟩

lemma Frame.mono (h : Frame m m' S) (hle : R ≤ S) : Frame m m' R :=
  ⟨fun pg hpg => h.on pg (Multiset.mem_of_le hle hpg), h.kernel⟩

lemma Frame.of_eq (h : m'.page = m.page) : Frame m m' S :=
  ⟨fun _ _ => by rw [h], fun _ _ => by rw [h]⟩

variable {p pt va level : ℕ}

/-- Only the page `p` has changed. -/
lemma Frame.of_ne (hp : IsPhys p) (hS : p ∉ S) (h : ∀ q ≠ p, m'.page q = m.page q) :
    Frame m m' S :=
  ⟨fun q hq => h q (ne_of_mem_of_not_mem hq hS), fun q hq => h q fun heq => hq (heq ▸ hp)⟩

lemma Frame.write (hp : IsPhys p) (hS : p ∉ S) (b : Bytes) : Frame m (m.write p b) S :=
  .of_ne hp hS fun _ hq => Mem.write_page_of_ne b hq

/-- A page has been taken from the allocator or given back to it, and no other has changed. -/
lemma Mem.Used.frame_cons {m₀ : Mem} (h : m₀.Used (p ::ₘ S))
    (hpage : ∀ q ≠ p, m'.page q = m.page q) (hle : R ≤ S) : Frame m m' R :=
  .of_ne (h.isPhys (Multiset.mem_cons_self p S))
    (fun hR => (Multiset.nodup_cons.mp h.nodup).1 (Multiset.mem_of_le hle hR)) hpage

namespace Owns

variable {x : TPos} {p i j : ℕ}

section

variable (h : Owns m T R)
include h

lemma isPhys (hx : T.node x = some p) : IsPhys p :=
  h.used.isPhys (Multiset.mem_add.mpr (Or.inl (PageTable.mem_tablePages.mpr ⟨x, hx⟩)))

lemma nodup_tablePages : T.tablePages.Nodup :=
  (Multiset.nodup_add.mp h.used.nodup).1

lemma notMem_rest (hx : T.node x = some p) : p ∉ R :=
  fun hp => Multiset.disjoint_left.mp (Multiset.nodup_add.mp h.used.nodup).2.2
    (PageTable.mem_tablePages.mpr ⟨x, hx⟩) hp

/-- Storing into a page outside of the table does not touch the table. -/
lemma congr (hfree : m'.freelist = m.freelist)
    (hpage : ∀ pg ∉ R, m'.page pg = m.page pg) : Owns m' T R where
  repr := h.repr.congr fun pg hpg => hpage pg fun hR =>
    Multiset.disjoint_left.mp (Multiset.nodup_add.mp h.used.nodup).2.2 hpg hR
  used := h.used.congr hfree fun pg hpg =>
    hpage pg fun hR => hpg (Multiset.mem_add.mpr (Or.inr hR))

/-- Storing into a page in `R`. -/
lemma write {pg : ℕ} (hpg : pg ∈ R) (b : Bytes) : Owns (m.write pg b) T R :=
  h.congr rfl fun _ hq => Mem.write_page_of_ne b (ne_of_mem_of_not_mem hpg hq).symm

lemma write_frame (hx : T.node x = some p) (b : Bytes) :
    Frame m (m.write p b) R := .write (h.isPhys hx) (h.notMem_rest hx) b

/-- Storing a leaf entry. -/
lemma setLeaf {k v : ℕ} {o : Option Pte} (hp : T.low i j = some p)
    (hk : k < 512) (hv : v = vpn i j k) (hlow : T.low (v / 2 ^ 18) (v / 2 ^ 9 % 512) ≠ none)
    (ho : ∀ e, o = some e → Pte.has e PTE_V = true) :
    Owns (m.write p ((m.page p).put64 (8 * k) (o.getD 0))) (T.setLeaf v o hlow ho) R := by
  have hnode : T.node (.low i j) = some p := hp
  have hj : j < 512 := (T.low_lt i j (by simp [hp])).1
  have hnd := h.nodup_tablePages
  refine ⟨⟨fun i' hi' => ?_, fun i' p' hp' j' hj' => ?_, fun i' j' p' hp' k' hk' => ?_⟩, ?_⟩
  · have hne : T.root ≠ p := fun heq =>
      absurd (PageTable.node_inj hnd (show T.node .root = some p by rw [← heq]; rfl) hnode) (by simp)
    rw [show (T.setLeaf v o hlow ho).root = T.root from rfl, Mem.write_page_of_ne _ hne]
    exact h.repr.root i' hi'
  · have hp' : T.mid i' = some p' := hp'
    have hne : p' ≠ p := fun heq =>
      absurd (PageTable.node_inj hnd (show T.node (.mid i') = some p by rw [← heq]; exact hp') hnode)
        (by simp)
    rw [Mem.write_page_of_ne _ hne]
    exact h.repr.mid i' p' hp' j' hj'
  · have hp' : T.low i' j' = some p' := hp'
    change _ = (update T.leaf v o (vpn i' j' k')).getD 0
    by_cases hpp : p' = p
    · subst hpp
      obtain ⟨rfl, rfl⟩ : i' = i ∧ j' = j := by
        simpa using PageTable.node_inj hnd (show T.node (.low i' j') = some p' from hp') hnode
      rw [Mem.write_page_self]
      by_cases hkk : k' = k
      · subst hkk
        rw [Bytes.get64_put64, hv, update_self]
      · rw [Bytes.get64_put64_of_disjoint (by omega),
          update_of_ne (by rw [hv]; unfold vpn; omega)]
        exact h.repr.low i' j' p' hp' k' hk'
    · have hne : vpn i' j' k' ≠ v := by
        intro heq
        have hj' : j' < 512 := (T.low_lt i' j' (by simp [hp'])).1
        have hij : i' = i ∧ j' = j := by
          rw [hv] at heq
          unfold vpn at heq
          omega
        rw [hij.1, hij.2, hp] at hp'
        exact hpp (Option.some.inj hp').symm
      rw [Mem.write_page_of_ne _ hpp, update_of_ne hne]
      exact h.repr.low i' j' p' hp' k' hk'
  · exact h.used.write (Multiset.mem_add.mpr (Or.inl (PageTable.mem_tablePages.mpr ⟨_, hnode⟩))) _

end

/-- Linking a new page into the root. -/
lemma addMid (h : Owns m T (p ::ₘ R)) (hi : i < 512) (hmid : T.mid i = none)
    (hzero : ∀ j < 512, (m.page p).get64 (8 * j) = 0) :
    Owns (m.write T.root ((m.page T.root).put64 (8 * i) (tableEntry (some p)))) (T.addMid i p hi)
      R := by
  have hroot : T.node .root = some T.root := rfl
  have hne : p ≠ T.root := fun heq => h.notMem_rest hroot (heq ▸ Multiset.mem_cons_self p R)
  have hnd := h.nodup_tablePages
  have hpages : (T.addMid i p hi).tablePages = T.tablePages + {p} := by
    rw [PageTable.tablePages, PageTable.node_addMid hi]
    exact gather_update_some (TPos.mid_mem_below.mpr hi) hmid p
  refine ⟨⟨fun i' hi' => ?_, fun i' q hq j hj => ?_, fun i' j q hq k hk => ?_⟩, ?_⟩
  · change (Mem.page (m.write T.root _) T.root).get64 (8 * i') =
      tableEntry (update T.mid i (some p) i')
    rw [Mem.write_page_self]
    by_cases hii : i' = i
    · subst hii
      rw [Bytes.get64_put64, update_self]
    · rw [Bytes.get64_put64_of_disjoint (by omega), update_of_ne hii]
      exact h.repr.root i' hi'
  · have hq : update T.mid i (some p) i' = some q := hq
    change _ = tableEntry (T.low i' j)
    by_cases hii : i' = i
    · subst hii
      obtain rfl : p = q := by simpa using hq
      have hlow : T.low i' j = none := by
        by_contra hl
        exact (T.low_lt i' j hl).2 hmid
      rw [Mem.write_page_of_ne _ hne, hzero j hj, hlow]
      rfl
    · rw [update_of_ne hii] at hq
      have hqr : q ≠ T.root := fun heq =>
        absurd (PageTable.node_inj hnd (show T.node (.mid i') = some T.root by rw [← heq]; exact hq)
          hroot) (by simp)
      rw [Mem.write_page_of_ne _ hqr]
      exact h.repr.mid i' q hq j hj
  · have hq : T.low i' j = some q := hq
    have hqr : q ≠ T.root := fun heq =>
      absurd (PageTable.node_inj hnd (show T.node (.low i' j) = some T.root by rw [← heq]; exact hq)
        hroot) (by simp)
    rw [Mem.write_page_of_ne _ hqr]
    exact h.repr.low i' j q hq k hk
  · rw [hpages, add_assoc, Multiset.singleton_add]
    exact h.used.write (Multiset.mem_add.mpr (Or.inl (PageTable.mem_tablePages.mpr ⟨_, hroot⟩))) _

/-- Linking a new page into a page of the middle level. -/
lemma addLow {q : ℕ} (h : Owns m T (p ::ₘ R)) (hj : j < 512) (hmid : T.mid i = some q)
    (hlow : T.low i j = none) (hzero : ∀ k < 512, (m.page p).get64 (8 * k) = 0) :
    Owns (m.write q ((m.page q).put64 (8 * j) (tableEntry (some p))))
      (T.addLow i j p hj (by simp [hmid])) R := by
  have hnode : T.node (.mid i) = some q := hmid
  have hne : p ≠ q := fun heq => h.notMem_rest hnode (heq ▸ Multiset.mem_cons_self p R)
  have hi : i < 512 := T.mid_lt i (by simp [hmid])
  have hnd := h.nodup_tablePages
  have hpages : (T.addLow i j p hj (by simp [hmid])).tablePages = T.tablePages + {p} := by
    rw [PageTable.tablePages, PageTable.node_addLow hj]
    exact gather_update_some (TPos.low_mem_below.mpr ⟨hi, hj⟩) hlow p
  refine ⟨⟨fun i' hi' => ?_, fun i' q' hq j' hj' => ?_, fun i' j' q' hq k hk => ?_⟩, ?_⟩
  · have hqr : T.root ≠ q := fun heq =>
      absurd (PageTable.node_inj hnd (show T.node .root = some q by rw [← heq]; rfl) hnode) (by simp)
    rw [show (T.addLow i j p hj (by simp [hmid])).root = T.root from rfl,
      Mem.write_page_of_ne _ hqr]
    exact h.repr.root i' hi'
  · have hmid' : T.mid i' = some q' := hq
    change _ = tableEntry (if i' = i ∧ j' = j then some p else T.low i' j')
    by_cases hqq : q' = q
    · subst hqq
      obtain rfl : i' = i := by
        simpa using PageTable.node_inj hnd (show T.node (.mid i') = some q' from hmid') hnode
      rw [Mem.write_page_self]
      by_cases hjj : j' = j
      · subst hjj
        rw [Bytes.get64_put64, if_pos ⟨rfl, rfl⟩]
      · rw [Bytes.get64_put64_of_disjoint (by omega), if_neg (by simp [hjj])]
        exact h.repr.mid i' q' hmid' j' hj'
    · have hii : i' ≠ i := by
        rintro rfl
        exact hqq (Option.some.inj (hmid'.symm.trans hmid))
      rw [Mem.write_page_of_ne _ hqq, if_neg (by simp [hii])]
      exact h.repr.mid i' q' hmid' j' hj'
  · have hlow' : (if i' = i ∧ j' = j then some p else T.low i' j') = some q' := hq
    change _ = (T.leaf (vpn i' j' k)).getD 0
    split at hlow'
    case isTrue hij =>
      obtain ⟨rfl, rfl⟩ := hij
      obtain rfl := Option.some.inj hlow'
      have hleaf : T.leaf (vpn i' j' k) = none := by
        by_contra hl
        have hl := T.leaf_low _ hl
        have hi' : vpn i' j' k / 2 ^ 18 = i' := by unfold vpn; omega
        have hj' : vpn i' j' k / 2 ^ 9 % 512 = j' := by unfold vpn; omega
        rw [hi', hj'] at hl
        exact hl hlow
      rw [Mem.write_page_of_ne _ hne, hzero k hk, hleaf]
      rfl
    case isFalse =>
      have hqq : q' ≠ q := fun heq =>
        absurd (PageTable.node_inj hnd (show T.node (.low i' j') = some q by rw [← heq]; exact hlow')
          hnode) (by simp)
      rw [Mem.write_page_of_ne _ hqq]
      exact h.repr.low i' j' q' hlow' k hk
  · rw [hpages, add_assoc, Multiset.singleton_add]
    exact h.used.write (Multiset.mem_add.mpr (Or.inl (PageTable.mem_tablePages.mpr ⟨_, hnode⟩))) _

end Owns

/-! ## `walk` -/

/-- A valid entry leads to the next page. -/
lemma walkLevel_some (alloc : Bool) (hp : IsPhys p)
    (he : (m.page pt).get64 (8 * px level va) = tableEntry (some p)) :
    Returns (walkLevel pt va level alloc) (fun r m' => r = some p ∧ m' = m) m := by
  simp only [Returns, walkLevel, getPte, wp_bind, wp_get, wp_pure, he]
  rw [wp_ite_pos (by simp), pte2pa_tableEntry hp]
  exact ⟨rfl, rfl⟩

omit [Layout] in
/-- Without `alloc` an invalid entry ends the walk. -/
lemma walkLevel_none (he : (m.page pt).get64 (8 * px level va) = 0) :
    Returns (walkLevel pt va level false) (fun r m' => r = none ∧ m' = m) m := by
  simp only [Returns, walkLevel, getPte, wp_bind, wp_get, wp_pure, he]
  rw [wp_ite_neg (by simp), wp_ite_pos (by simp)]
  exact ⟨rfl, rfl⟩

/-- With `alloc`, a zeroed page is linked in unless there is no memory. -/
lemma walkLevel_alloc (h : m.Used S) (he : (m.page pt).get64 (8 * px level va) = 0) :
    Returns (walkLevel pt va level true) (fun r m' => (r = none ∧ m'.Used S ∧ m'.page = m.page) ∨
      ∃ (p : ℕ) (m₁ : Mem), r = some p ∧ m₁.Used (p ::ₘ S) ∧ (∀ q ≠ p, m₁.page q = m.page q) ∧
        (∀ j < 512, (m₁.page p).get64 (8 * j) = 0) ∧
        m' = m₁.write pt ((m₁.page pt).put64 (8 * px level va) (tableEntry (some p)))) m := by
  simp only [Returns, walkLevel, getPte, wp_bind, wp_get, wp_pure, he]
  rw [wp_ite_neg (by simp), wp_ite_neg (by simp), wp_bind]
  refine (kalloc_spec h).imp fun p m' hk => ?_
  rcases hk with ⟨rfl, hused, hpage⟩ | ⟨hp, hused, hpage⟩
  · rw [wp_ite_pos rfl]
    exact Or.inl ⟨rfl, hused, hpage⟩
  · rw [wp_ite_neg hp.pos.ne']
    simp only [memset, setPte, wp_bind, wp_modify, wp_pure]
    refine Or.inr ⟨p, _, rfl, hused.write (Multiset.mem_cons_self p S) _, fun q hq => ?_,
      fun j hj => ?_, rfl⟩
    · rw [Mem.write_page_of_ne _ hq, hpage q hq]
    · rw [Mem.write_page_self]
      exact get64_fill_zero _ hj

namespace Owns

variable {va p : ℕ}

section

variable (h : Owns m T R)
include h

/-- `walk` without `alloc` looks the entry up. -/
lemma walk_false (hva : va < MAXVA) : Returns (walk T.root va false) (fun r m' =>
      r = (T.low (px 2 va) (px 1 va)).map (·, px 0 va) ∧ m' = m) m := by
  simp only [Returns, walk]
  rw [wp_ite_neg (by omega), wp_bind]
  have hroot := h.repr.root _ (px_two hva).2
  cases hmid : T.mid (px 2 va) with
  | none =>
    rw [hmid] at hroot
    have hlow : T.low (px 2 va) (px 1 va) = none := by
      by_contra hl
      exact (T.low_lt _ _ hl).2 hmid
    refine (walkLevel_none hroot).imp ?_
    rintro r m' ⟨hr, hm⟩
    subst hr hm
    simp [hlow]
  | some p =>
    rw [hmid] at hroot
    refine (walkLevel_some false (h.isPhys (x := .mid _) hmid) hroot).imp ?_
    rintro r m' ⟨hr, hm⟩
    subst hr hm
    rw [wp_bind]
    have hentry := h.repr.mid _ _ hmid _ (px_one va).2
    cases hlow : T.low (px 2 va) (px 1 va) with
    | none =>
      rw [hlow] at hentry
      refine (walkLevel_none hentry).imp ?_
      rintro r m' ⟨hr, hm⟩
      subst hr hm
      simp
    | some q =>
      rw [hlow] at hentry
      refine (walkLevel_some false (h.isPhys (x := .low _ _) hlow) hentry).imp ?_
      rintro r m' ⟨hr, hm⟩
      subst hr hm
      simp

/-- One level of `walk` with `alloc`: the page that the entry names, or a new one that is linked in. -/
lemma walkLevel_true {x : TPos} {q level : ℕ} {e : Option ℕ} {P : PageTable → ℕ → Prop}
    (hx : T.node x = some q) (he : (m.page q).get64 (8 * px level va) = tableEntry e)
    (hsome : ∀ p, e = some p → IsPhys p ∧ P T p)
    (hnone : e = none → ∀ p m₁, Owns m₁ T (p ::ₘ R) → (∀ j < 512, (m₁.page p).get64 (8 * j) = 0) →
      ∃ T' : PageTable, T'.root = T.root ∧ T'.leaf = T.leaf ∧ P T' p ∧
        Owns (m₁.write q ((m₁.page q).put64 (8 * px level va) (tableEntry (some p)))) T' R) :
    Returns (walkLevel q va level true) (fun r m' => ∃ T' : PageTable, T'.root = T.root ∧
      T'.leaf = T.leaf ∧ Owns m' T' R ∧ Frame m m' R ∧ ∀ p, r = some p → P T' p) m := by
  cases e with
  | some p =>
    obtain ⟨hp, hP⟩ := hsome p rfl
    refine (walkLevel_some true hp he).imp ?_
    rintro r m' ⟨rfl, rfl⟩
    exact ⟨T, rfl, rfl, h, Frame.refl _ _, fun p' hp' => Option.some.inj hp' ▸ hP⟩
  | none =>
    refine (walkLevel_alloc h.used he).imp fun r m' hr => ?_
    rcases hr with ⟨rfl, hused, hpage⟩ | ⟨p, m₁, rfl, hused, hpage, hzero, rfl⟩
    · exact ⟨T, rfl, rfl, ⟨by rw [hpage]; exact h.repr, hused⟩, .of_eq hpage,
        fun p hp => absurd hp (by simp)⟩
    · have hnot : ∀ q ∈ T.tablePages + R, q ≠ p := fun q hq heq =>
        (Multiset.nodup_cons.mp hused.nodup).1 (heq ▸ hq)
      have howns : Owns m₁ T (p ::ₘ R) :=
        ⟨h.repr.congr fun q hq => hpage q (hnot q (Multiset.mem_add.mpr (Or.inl hq))),
          by rwa [Multiset.add_cons]⟩
      obtain ⟨T', hroot, hleaf, hP, ho⟩ := hnone rfl p m₁ howns hzero
      exact ⟨T', hroot, hleaf, ho, (hused.frame_cons hpage (Multiset.le_add_left _ _)).trans
        ((howns.write_frame hx _).mono (Multiset.le_cons_self R p)),
        fun p' hp' => Option.some.inj hp' ▸ hP⟩

/-- One level of `walk` with `alloc`, at the root. -/
lemma walkLevel_root (hva : va < MAXVA) :
    Returns (walkLevel T.root va 2 true) (fun r m' => ∃ T' : PageTable, T'.root = T.root ∧
      T'.leaf = T.leaf ∧ Owns m' T' R ∧ Frame m m' R ∧ ∀ p, r = some p → T'.mid (px 2 va) = some p)
      m :=
  h.walkLevel_true (x := .root) rfl (h.repr.root _ (px_two hva).2)
    (fun _ hp => ⟨h.isPhys (x := .mid _) hp, hp⟩) fun hmid p _ ho hzero =>
      ⟨T.addMid (px 2 va) p (px_two hva).2, rfl, rfl, update_self .., ho.addMid _ hmid hzero⟩

/-- One level of `walk` with `alloc`, at a page of the middle level. -/
lemma walkLevel_mid {q : ℕ} (hmid : T.mid (px 2 va) = some q) :
    Returns (walkLevel q va 1 true) (fun r m' => ∃ T' : PageTable, T'.root = T.root ∧
      T'.leaf = T.leaf ∧ Owns m' T' R ∧ Frame m m' R ∧
      ∀ p, r = some p → T'.low (px 2 va) (px 1 va) = some p) m :=
  h.walkLevel_true (x := .mid _) hmid (h.repr.mid _ _ hmid _ (px_one va).2)
    (fun _ hp => ⟨h.isPhys (x := .low _ _) hp, hp⟩) fun hlow p _ ho hzero =>
      ⟨T.addLow (px 2 va) (px 1 va) p (px_one va).2 (by simp [hmid]), rfl, rfl, if_pos ⟨rfl, rfl⟩,
        ho.addLow _ hmid hlow hzero⟩

/-- `walk` with `alloc` makes the pages on the way to the entry, as long as there is memory. -/
lemma walk_true (hva : va < MAXVA) :
    Returns (walk T.root va true) (fun r m' => ∃ T' : PageTable, T'.root = T.root ∧
      T'.leaf = T.leaf ∧ Owns m' T' R ∧ Frame m m' R ∧
      ∀ loc, r = some loc → T'.low (px 2 va) (px 1 va) = some loc.1 ∧ loc.2 = px 0 va) m := by
  simp only [Returns, walk]
  rw [wp_ite_neg (by omega), wp_bind]
  refine (h.walkLevel_root hva).imp ?_
  rintro r m₁ ⟨T₁, hr₁, hl₁, ho₁, hf₁, hmid⟩
  cases r with
  | none => exact ⟨T₁, hr₁, hl₁, ho₁, hf₁, fun loc hloc => absurd hloc (by simp)⟩
  | some q =>
    simp only [wp_bind]
    refine (ho₁.walkLevel_mid (hmid q rfl)).imp ?_
    rintro r m₂ ⟨T₂, hr₂, hl₂, ho₂, hf₂, hlow⟩
    cases r with
    | none =>
      exact ⟨T₂, hr₂.trans hr₁, hl₂.trans hl₁, ho₂, hf₁.trans hf₂,
        fun loc hloc => absurd hloc (by simp)⟩
    | some p =>
      refine ⟨T₂, hr₂.trans hr₁, hl₂.trans hl₁, ho₂, hf₁.trans hf₂, fun loc hloc => ?_⟩
      obtain rfl := Option.some.inj hloc
      exact ⟨hlow p rfl, rfl⟩

/-- The entry that `walk` finds for `va`. -/
lemma getPte_low (hva : va < MAXVA) (hp : T.low (px 2 va) (px 1 va) = some p) :
    (m.page p).get64 (8 * px 0 va) = (T.leaf (pageOf va)).getD 0 := by
  rw [h.repr.low _ _ _ hp _ (px_zero va).2, vpn_px hva]

/-- Storing the entry that `walk` finds for `va`. -/
lemma setPte_low {o : Option Pte} (hva : va < MAXVA)
    (hp : T.low (px 2 va) (px 1 va) = some p) (ho : ∀ e, o = some e → Pte.has e PTE_V = true) :
    ∃ T' : PageTable, T'.node = T.node ∧ T'.leaf = update T.leaf (pageOf va) o ∧
      Owns (m.write p ((m.page p).put64 (8 * px 0 va) (o.getD 0))) T' R ∧
      Frame m (m.write p ((m.page p).put64 (8 * px 0 va) (o.getD 0))) R := by
  have hlow : T.low (pageOf va / 2 ^ 18) (pageOf va / 2 ^ 9 % 512) ≠ none := by
    rw [← (px_two hva).1, ← (px_one va).1, hp]
    simp
  exact ⟨T.setLeaf (pageOf va) o hlow ho, rfl, rfl, h.setLeaf hp (px_zero va).2 (vpn_px hva).symm hlow ho,
    h.write_frame (x := .low _ _) hp _⟩

/-- `mappages` of one page. -/
lemma mappages_one (pa : ℕ) (perm : Pte) (ha : va % PGSIZE = 0)
    (hva : va < MAXVA) (hleaf : T.leaf (pageOf va) = none) :
    Returns (mappages T.root va PGSIZE pa perm) (fun r m' => ∃ T' : PageTable, T'.root = T.root ∧
      Owns m' T' R ∧ Frame m m' R ∧
      ((r = -1 ∧ T'.leaf = T.leaf) ∨
       (r = 0 ∧ T'.leaf =
        update T.leaf (pageOf va) (some (pa2pte pa ||| perm ||| PTE_V))))) m := by
  simp only [Returns, mappages]
  rw [wp_ite_neg (by simpa using ha), wp_ite_neg (by simp), wp_ite_neg (by decide),
    Nat.div_self (by decide)]
  simp only [mappagesLoop, wp_bind]
  refine (h.walk_true hva).imp ?_
  rintro r m₁ ⟨T₁, hr₁, hl₁, ho₁, hf₁, hloc⟩
  cases r with
  | none => exact ⟨T₁, hr₁, ho₁, hf₁, Or.inl ⟨rfl, hl₁⟩⟩
  | some loc =>
    obtain ⟨hlow, hk⟩ := hloc loc rfl
    obtain ⟨pg, i⟩ := loc
    subst hk
    have hentry : (m₁.page pg).get64 (8 * px 0 va) = 0 := by
      rw [ho₁.getPte_low hva hlow, hl₁, hleaf]
      rfl
    simp only [getPte, wp_bind, wp_get, wp_pure, hentry]
    rw [wp_ite_neg (by simp)]
    simp only [setPte, wp_modify, wp_bind, wp_pure]
    obtain ⟨T₂, hr₂, hl₂, ho₂, hf₂⟩ := ho₁.setPte_low (o := some (pa2pte pa ||| perm ||| PTE_V)) hva
      hlow (by rintro e he; obtain rfl := Option.some.inj he; exact has_V_or_V _)
    exact ⟨T₂, (PageTable.root_eq hr₂).trans hr₁, ho₂, hf₁.trans hf₂, Or.inr ⟨trivial, by rw [hl₂, hl₁]⟩⟩

end

end Owns
end Xv6
