import Xv6.Vm.Space
import Xv6.Vm.Denied

/-!
# The memory that a user sees

A page below the size of a process that is not mapped will be mapped by `vmfault` when it is
touched, and holds zeros then.  So the user's memory is a function of the table and of physical
memory in which absent pages read as zero, `PageTable.view`, and mapping a zeroed page changes
nothing in it.
-/

namespace Xv6

variable {m m' m'' : Mem} {T T' T'' : PageTable} {v : ℕ} {e : Pte}

/-- The contents of the user page `v`. -/
def PageTable.view (T : PageTable) (page : ℕ → Bytes) (v : ℕ) : Bytes :=
  match T.leaf v with
  | none => fun _ => 0
  | some e => page (pte2pa e)

lemma PageTable.view_of_none {page : ℕ → Bytes} (h : T.leaf v = none) :
    T.view page v = fun _ => 0 := by rw [view, h]

lemma PageTable.view_of_some {page : ℕ → Bytes} (h : T.leaf v = some e) :
    T.view page v = page (pte2pa e) := by rw [view, h]

/-- Nothing has been stored into the user pages. -/
lemma PageTable.view_frame [Layout] (hf : Frame m m' T.userPages) (hv : v < UPAGES) :
    T.view m'.page v = T.view m.page v := by
  cases he : T.leaf v with
  | none => rw [view_of_none he, view_of_none he]
  | some e =>
    rw [view_of_some he, view_of_some he, hf.on _ (mem_leafPages.mpr ⟨v, Nat.zero_le v, hv, e, he, rfl⟩)]

/-- Only the leaf of a page matters to what the user sees there. -/
lemma PageTable.view_congr {page : ℕ → Bytes} (h : T'.leaf v = T.leaf v) :
    T'.view page v = T.view page v := by rw [view, view, h]

/-- The user byte at an address. -/
def PageTable.byte (T : PageTable) (page : ℕ → Bytes) (va : ℕ) : Byte :=
  T.view page (pageOf va) (va % PGSIZE)

/-- The user sees the same in both states. -/
def SameView (m : Mem) (T : PageTable) (m' : Mem) (T' : PageTable) : Prop :=
  ∀ v < UPAGES, ∀ i < PGSIZE, T'.view m'.page v i = T.view m.page v i

namespace SameView

lemma refl (m : Mem) (T : PageTable) : SameView m T m T := fun _ _ _ _ => rfl

lemma trans (h : SameView m T m' T') (h' : SameView m' T' m'' T'') : SameView m T m'' T'' :=
  fun v hv i hi => (h' v hv i hi).trans (h v hv i hi)

lemma byte (h : SameView m T m' T') {va : ℕ} (hva : pageOf va < UPAGES) :
    T'.byte m'.page va = T.byte m.page va :=
  h _ hva _ (Nat.mod_lt _ (by decide))

/-- The table and the user pages are untouched. -/
lemma of_frame [Layout] (hl : T'.leaf = T.leaf) (hf : Frame m m' T.userPages) : SameView m T m' T' := by
  intro v hv i _
  rw [PageTable.view_congr (congrFun hl v), PageTable.view_frame hf hv]

/-- A page of zeros has been mapped. -/
lemma of_zero [Layout] (hnone : T.leaf v = none) (hl : T'.leaf = Function.update T.leaf v (some e))
    (hf : Frame m m' T.userPages) (hz : ∀ i < PGSIZE, m'.page (pte2pa e) i = 0) :
    SameView m T m' T' := by
  intro u hu i hi
  by_cases huv : u = v
  · subst huv
    rw [PageTable.view_of_none hnone, PageTable.view_of_some (by rw [hl, Function.update_self])]
    exact hz i hi
  · have heq : T'.leaf u = T.leaf u := by rw [hl, Function.update_of_ne huv]
    rw [PageTable.view_congr heq, PageTable.view_frame hf hu]

end SameView

end Xv6
