import Xv6.Vm.Walk

/-!
# Freeing a page table

`freewalk` goes down a table without leaves and frees every page of it.  `SubTable page d p S` says
that memory holds such a table of at most `d` levels at page `p`, and that `S` are its pages.
-/

namespace Xv6

open Finset

/-- A table without leaves, of at most `d` levels, at page `p` with pages `S`. -/
def SubTable (page : ℕ → Bytes) : ℕ → ℕ → Multiset ℕ → Prop
  | 0, _, _ => False
  | d + 1, p, S => ∃ (child : ℕ → Option ℕ) (sub : ℕ → Multiset ℕ),
    S = p ::ₘ ∑ i ∈ Ico 0 512, sub i ∧
    ∀ i < 512, (page p).get64 (8 * i) = tableEntry (child i) ∧ (child i = none → sub i = 0) ∧
      ∀ q, child i = some q → SubTable page d q (sub i)

variable {page : ℕ → Bytes} {d p i : ℕ} {S R : Multiset ℕ} {sub : ℕ → Multiset ℕ} {m : Mem}
  {T : PageTable}

lemma SubTable.mem (h : SubTable page d p S) :
    p ∈ S := by
  cases d with
  | zero => exact h.elim
  | succ d =>
    obtain ⟨child, sub, rfl, -⟩ := h
    exact Multiset.mem_cons_self ..

lemma le_sum_of_mem {s : Finset ℕ} (hi : i ∈ s) :
    sub i ≤ ∑ j ∈ s, sub j := by
  rw [← add_sum_erase s sub hi]
  exact Multiset.le_add_right ..

lemma SubTable.congr {page' : ℕ → Bytes}
    (h : SubTable page d p S) (hpage : ∀ q ∈ S, page' q = page q) : SubTable page' d p S := by
  induction d generalizing p S with
  | zero => exact h
  | succ d ih =>
    obtain ⟨child, sub, rfl, hent⟩ := h
    refine ⟨child, sub, rfl, fun i hi => ?_⟩
    obtain ⟨he, hn, hs⟩ := hent i hi
    refine ⟨by rw [hpage p (Multiset.mem_cons_self ..), he], hn, fun q hq => ?_⟩
    refine ih (hs q hq) fun r hr => hpage r (Multiset.mem_cons_of_mem ?_)
    exact Multiset.mem_of_le (le_sum_of_mem (mem_Ico.mpr ⟨Nat.zero_le i, hi⟩)) hr

variable [Layout]

/-- The loop of `freewalk`: the subtables from entry `i` on are freed. -/
lemma freewalkLoop_spec {child : ℕ → Option ℕ}
    (hchild : ∀ q S m R, m.Used (S + R) → SubTable m.page d q S →
      Returns (freewalk d q) (fun _ m' => m'.Used R ∧ Frame m m' R) m) (n : ℕ) (hn : i + n = 512)
    (h : m.Used (p ::ₘ (∑ j ∈ Ico i 512, sub j) + R))
    (hent : ∀ j, i ≤ j → j < 512 → (m.page p).get64 (8 * j) = tableEntry (child j) ∧
      (child j = none → sub j = 0) ∧ ∀ q, child j = some q → SubTable m.page d q (sub j)) :
    Returns (freewalkLoop (freewalk d) p n i) (fun _ m' => m'.Used (p ::ₘ R) ∧ Frame m m' R) m := by
  induction n generalizing i m with
  | zero =>
    obtain rfl : i = 512 := by omega
    refine ⟨by simpa using h, Frame.refl _ _⟩
  | succ n ih =>
    have hi : i < 512 := by omega
    obtain ⟨he, hnone, hsub⟩ := hent i le_rfl hi
    rw [sum_eq_sum_Ico_succ_bot hi] at h
    simp only [Returns, freewalkLoop, getPte, wp_bind, wp_get, wp_pure, he]
    cases hc : child i with
    | none =>
      rw [wp_ite_neg (by simp), wp_ite_neg (by simp)]
      rw [hnone hc, zero_add] at h
      exact ih (by omega) h fun j hj hj' => hent j (by omega) hj'
    | some q =>
      have hflags : Pte.has (tableEntry (some q)) (PTE_R ||| PTE_W ||| PTE_X) = false := by
        rw [tableEntry, has_pa2pte_or (by decide)]
        decide
      have hphys : IsPhys q := h.isPhys (by
        have := (hsub q hc).mem
        simp [this])
      rw [wp_ite_pos (by simp [hflags]), pte2pa_tableEntry hphys, wp_bind]
      have h' : m.Used (sub i + (p ::ₘ (∑ j ∈ Ico (i + 1) 512, sub j) + R)) := by
        rw [show sub i + (p ::ₘ (∑ j ∈ Ico (i + 1) 512, sub j) + R) =
          p ::ₘ (sub i + ∑ j ∈ Ico (i + 1) 512, sub j) + R by
            simp only [Multiset.cons_add, Multiset.add_cons, add_assoc]]
        exact h
      refine (hchild q _ m _ h' (hsub q hc)).imp ?_
      rintro _ m₁ ⟨hused, hframe⟩
      simp only [setPte, wp_bind, wp_modify]
      have hnot : p ∉ (∑ j ∈ Ico (i + 1) 512, sub j) + R := by
        have hnd := hused.nodup
        rw [Multiset.cons_add] at hnd
        exact (Multiset.nodup_cons.mp hnd).1
      have hp : m₁.page p = m.page p := hframe.on p (by simp)
      have hw : m₁.Used (p ::ₘ (∑ j ∈ Ico (i + 1) 512, sub j) + R) := hused
      refine (ih (by omega) (hw.write (by simp) _) fun j hj hj' => ?_).imp
        fun _ m₂ h₂ => ⟨h₂.1, ?_⟩
      · obtain ⟨hej, hnj, hsj⟩ := hent j (by omega) hj'
        refine ⟨?_, hnj, fun r hr => (hsj r hr).congr fun x hx => ?_⟩
        · rw [Mem.write_page_self, Bytes.get64_put64_of_disjoint (by omega), hp, hej]
        · have hmem : x ∈ ∑ j ∈ Ico (i + 1) 512, sub j :=
            Multiset.mem_of_le (le_sum_of_mem (mem_Ico.mpr ⟨hj, hj'⟩)) hx
          rw [Mem.write_page_of_ne _ (by rintro rfl; exact hnot (by simp [hmem]))]
          exact hframe.on x (by simp [hmem])
      · have hphys₁ : IsPhys p := hw.isPhys (by simp)
        have hle : R ≤ p ::ₘ (∑ j ∈ Ico (i + 1) 512, sub j) + R := Multiset.le_add_left _ _
        exact ((hframe.mono hle).trans
          (.write hphys₁ (fun hx => hnot (by simp [hx])) _)).trans h₂.2

/-- `freewalk` frees every page of a table without leaves. -/
lemma freewalk_spec (d : ℕ) : ∀ (p : ℕ) (S : Multiset ℕ) (m : Mem) (R : Multiset ℕ),
    m.Used (S + R) → SubTable m.page d p S →
    Returns (freewalk d p) (fun _ m' => m'.Used R ∧ Frame m m' R) m := by
  induction d with
  | zero => exact fun _ _ _ _ _ h => h.elim
  | succ d ih =>
    rintro p S m R h ⟨child, sub, rfl, hent⟩
    simp only [Returns, freewalk, wp_bind]
    refine (freewalkLoop_spec ih 512 (Nat.zero_add _) h fun j _ hj => hent j hj).imp ?_
    rintro _ m₁ ⟨hused, hframe⟩
    refine (kfree_spec hused).imp ?_
    rintro _ m₂ ⟨hused₂, hpage⟩
    exact ⟨hused₂, hframe.trans (hused.frame_cons hpage le_rfl)⟩

/-! ## From page tables to subtables -/

omit [Layout] in
/-- The places of a table, level by level. -/
lemma gather_below (n : ℕ) (f : TPos → Option ℕ) :
    gather (TPos.below n) f = single (f .root) +
      ∑ i ∈ range n, (single (f (.mid i)) + ∑ j ∈ range n, single (f (.low i j))) := by
  have hmid : Set.InjOn TPos.mid (range n : Set ℕ) := fun a _ b _ h => by injection h
  have hlow : Set.InjOn (fun p : ℕ × ℕ => TPos.low p.1 p.2) ((range n ×ˢ range n : Finset _) : Set _) :=
    fun a _ b _ h => by
      injection h with h₁ h₂
      exact Prod.ext h₁ h₂
  rw [gather, TPos.below, sum_union, sum_union, sum_singleton, sum_image hmid, sum_image hlow,
    sum_product, sum_add_distrib, add_assoc]
  · simp
  · rw [disjoint_left]
    intro x hx hx'
    obtain ⟨p, -, rfl⟩ := mem_image.mp hx'
    simp at hx

omit [Layout] in
/-- A table without leaves is a subtable of three levels. -/
lemma PageTable.Repr.subTable (h : T.Repr page)
    (hleaf : ∀ v, T.leaf v = none) : SubTable page 3 T.root T.tablePages := by
  refine ⟨T.mid, fun i => single (T.mid i) + ∑ j ∈ range 512, single (T.low i j), ?_, ?_⟩
  · rw [tablePages, gather_below, ← range_eq_Ico]
    exact Multiset.singleton_add ..
  intro i hi
  refine ⟨h.root i hi, fun hmid => ?_, fun p hp => ?_⟩
  · have hlow : ∀ j, T.low i j = none := fun j => by
      by_contra hl
      exact (T.low_lt i j hl).2 hmid
    simp [hmid, hlow]
  refine ⟨T.low i, fun j => single (T.low i j), ?_, ?_⟩
  · beta_reduce
    rw [hp, ← range_eq_Ico]
    exact Multiset.singleton_add ..
  intro j hj
  refine ⟨h.mid i p hp j hj, fun hlow => by simp [hlow], fun q hq => ?_⟩
  refine ⟨fun _ => none, fun _ => 0, ?_, fun k hk => ⟨?_, fun _ => rfl, fun r hr => ?_⟩⟩
  · simp [hq]
  · rw [h.low i j q hq k hk, hleaf]
    rfl
  · exact absurd hr (by simp)

/-- Freeing a table without leaves. -/
lemma Owns.freewalk (h : Owns m T R) (hleaf : ∀ v, T.leaf v = none) :
    Returns (Xv6.freewalk 3 T.root) (fun _ m' => m'.Used R ∧ Frame m m' R) m :=
  freewalk_spec 3 _ _ m R h.used (h.repr.subTable hleaf)

end Xv6
