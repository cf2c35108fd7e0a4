import Xv6.Vm.User

/-!
# Reading back from memory

What the pages of physical memory say by themselves, as the hardware sees it: the pages of the free
list, one after the other, and the pages and valid leaves of the page table whose root is given.
-/

namespace Xv6

/-! ## The free list -/

/-- The `n`-th page of the free list. -/
def Mem.nthFree (m : Mem) : ℕ → Option ℕ
  | 0 => if m.freelist = 0 then none else some m.freelist
  | n + 1 => (m.nthFree n).bind fun p =>
    let next := ((m.page p).get64 0).toNat
    if next = 0 then none else some next

/-- The same from any page of the list on. -/
private lemma nthFree_of_freeList {m : Mem} {l : List ℕ} (hpos : ∀ p ∈ l, p ≠ 0) {head n : ℕ}
    (h : FreeList m.page head l) (hn : m.nthFree n = if head = 0 then none else some head)
    (i : ℕ) : m.nthFree (n + i) = l[i]? := by
  induction l generalizing head n i with
  | nil =>
    obtain rfl : head = 0 := h
    induction i with
    | zero => simpa using hn
    | succ i ih => simp [Mem.nthFree, ih]
  | cons p l ih =>
    obtain ⟨rfl, hl⟩ := h
    rw [if_neg (hpos head List.mem_cons_self)] at hn
    cases i with
    | zero => simpa using hn
    | succ i =>
      have hstep : m.nthFree (n + 1) = if ((m.page head).get64 0).toNat = 0 then none
          else some ((m.page head).get64 0).toNat := by
        rw [Mem.nthFree, hn, Option.bind_some]
      rw [List.getElem?_cons_succ, Nat.add_comm i 1, ← Nat.add_assoc]
      exact ih (fun q hq => hpos q (List.mem_cons_of_mem _ hq)) hl hstep i

lemma nthFree_eq {m : Mem} {l : List ℕ} (hpos : ∀ p ∈ l, p ≠ 0)
    (h : FreeList m.page m.freelist l) (i : ℕ) : m.nthFree i = l[i]? := by
  have := nthFree_of_freeList hpos h (n := 0) rfl i
  rwa [Nat.zero_add] at this

/-! ## Page tables -/

/-- The page that the entry `i` of a page-table page refers to. -/
def Mem.entryAt (m : Mem) (pagetable i : ℕ) : Option ℕ :=
  let pte : Pte := (m.page pagetable).get64 (8 * i)
  if i < 512 ∧ pte.has PTE_V then some (pte2pa pte) else none

/-- The page-table page at a place in the table with the given root. -/
def Mem.nodeAt (m : Mem) (root : ℕ) : TPos → Option ℕ
  | .root => some root
  | .mid i => m.entryAt root i
  | .low i j => (m.entryAt root i).bind fun p => m.entryAt p j

/-- The valid leaf for a virtual page number. -/
def Mem.leafAt (m : Mem) (root v : ℕ) : Option Pte :=
  (m.nodeAt root (.low (v / 2 ^ 18) (v / 2 ^ 9 % 512))).bind fun p =>
    let pte : Pte := (m.page p).get64 (8 * (v % 512))
    if pte.has PTE_V then some pte else none

lemma Mem.nodeAt_mem_below {m : Mem} {root p : ℕ} {x : TPos} (h : m.nodeAt root x = some p) :
    x ∈ TPos.below 512 := by
  have hlt : ∀ {pt i q : ℕ}, m.entryAt pt i = some q → i < 512 := by
    intro pt i q h
    simp only [Mem.entryAt] at h
    split at h
    · next hi => exact hi.1
    · exact absurd h (by simp)
  cases x with
  | root => exact TPos.root_mem_below
  | mid i => exact TPos.mid_mem_below.mpr (hlt h)
  | low i j =>
    obtain ⟨q, hq, hp⟩ := Option.bind_eq_some_iff.mp h
    exact TPos.low_mem_below.mpr ⟨hlt hq, hlt hp⟩

lemma vpn_div_mod (v : ℕ) : vpn (v / 2 ^ 18) (v / 2 ^ 9 % 512) (v % 512) = v := by
  unfold vpn
  omega

section

variable [Layout] {m : Mem} {T : PageTable}

lemma entryAt_tableEntry {pt i : ℕ} {o : Option ℕ} (ho : ∀ p, o = some p → IsPhys p ∧ i < 512)
    (h : i < 512 → (m.page pt).get64 (8 * i) = tableEntry o) : m.entryAt pt i = o := by
  simp only [Mem.entryAt]
  cases o with
  | none => exact if_neg fun ⟨hi, hv⟩ => by simp [h hi] at hv
  | some p =>
    obtain ⟨hphys, hi⟩ := ho p rfl
    rw [h hi, if_pos ⟨hi, by simp⟩, pte2pa_tableEntry hphys]

/-- Memory that holds a table has its pages at their places. -/
lemma PageTable.Repr.nodeAt (h : T.Repr m.page) (hphys : ∀ x p, T.node x = some p → IsPhys p)
    (x : TPos) : m.nodeAt T.root x = T.node x := by
  have hmid : ∀ i, m.entryAt T.root i = T.mid i := fun i =>
    entryAt_tableEntry (fun p hp => ⟨hphys (.mid i) p hp, T.mid_lt i (by simp [hp])⟩) (h.root i)
  cases x with
  | root => rfl
  | mid i => exact hmid i
  | low i j =>
    change (m.entryAt T.root i).bind _ = T.low i j
    rw [hmid i]
    cases hi : T.mid i with
    | none =>
      have hnone : ¬T.low i j ≠ none := fun hlow => (T.low_lt i j hlow).2 hi
      exact (not_not.mp hnone).symm
    | some p =>
      exact entryAt_tableEntry
        (fun q hq => ⟨hphys (.low i j) q hq, (T.low_lt i j (by simp [hq])).1⟩) (h.mid i p hi j)

/-- Memory that holds a table has its leaves, and no others. -/
lemma PageTable.Repr.leafAt (h : T.Repr m.page) (hphys : ∀ x p, T.node x = some p → IsPhys p)
    (v : ℕ) : m.leafAt T.root v = T.leaf v := by
  rw [Mem.leafAt, h.nodeAt hphys]
  cases hlow : T.low (v / 2 ^ 18) (v / 2 ^ 9 % 512) with
  | none =>
    have hnone : ¬T.leaf v ≠ none := fun hleaf => T.leaf_low v hleaf hlow
    rw [not_not.mp hnone, PageTable.node, hlow]
    rfl
  | some p =>
    have hpte := h.low _ _ p hlow (v % 512) (Nat.mod_lt v (by decide))
    rw [vpn_div_mod] at hpte
    rw [PageTable.node, hlow, Option.bind_some, hpte]
    cases hleaf : T.leaf v with
    | none => simp
    | some e => simp [T.leaf_valid v e hleaf]

end

end Xv6
