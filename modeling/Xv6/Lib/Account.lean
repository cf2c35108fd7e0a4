import Mathlib

/-!
# Accounting for exclusive resources

Resources of type `α` are held at places: a place `x` holds at most one resource, `f x`.  The
resources held at the places of a finite set are a multiset, `gather S f`.  If that multiset is part
of a duplicate-free stock then every resource is held at exactly one place; and an operation keeps
this if it keeps the multiset, however it moves resources between places.
-/

namespace Xv6

open Function

variable {ι α : Type*}

/-- At most one resource, as a multiset. -/
def single : Option α → Multiset α
  | none => 0
  | some a => {a}

@[simp] lemma single_none : single (none : Option α) = 0 := rfl

@[simp] lemma single_some (a : α) : single (some a) = {a} := rfl

@[simp] lemma mem_single {o : Option α} {a : α} : a ∈ single o ↔ o = some a := by
  cases o with
  | none => simp
  | some b => simp [eq_comm]

/-- The resources held at the places in `S`. -/
def gather (S : Finset ι) (f : ι → Option α) : Multiset α := ∑ x ∈ S, single (f x)

variable {S : Finset ι} {f g : ι → Option α} {a : α} {x y : ι}

@[simp] lemma mem_gather : a ∈ gather S f ↔ ∃ x ∈ S, f x = some a := by
  simp [gather, Multiset.mem_sum]

lemma gather_congr (h : ∀ x ∈ S, f x = g x) : gather S f = gather S g :=
  Finset.sum_congr rfl fun x hx => by rw [h x hx]

lemma gather_eq_zero (h : ∀ x ∈ S, f x = none) : gather S f = 0 :=
  Finset.sum_eq_zero fun x hx => by rw [h x hx, single_none]

section Update

variable [DecidableEq ι]

/-- How a sum over places changes with what is at one of them. -/
lemma sum_update_add {β M : Type*} [AddCommMonoid M] (g : β → M) (f : ι → β) (hx : x ∈ S) (v : β) :
    ∑ y ∈ S, g (update f x v y) + g (f x) = ∑ y ∈ S, g (f y) + g v := by
  have hrest : ∑ y ∈ S.erase x, g (update f x v y) = ∑ y ∈ S.erase x, g (f y) :=
    Finset.sum_congr rfl fun y hy => by rw [update_of_ne (Finset.ne_of_mem_erase hy)]
  rw [← Finset.add_sum_erase S _ hx, ← Finset.add_sum_erase S (fun y => g (f y)) hx, hrest,
    update_self]
  abel

lemma gather_eq_single_add (hx : x ∈ S) : gather S f = single (f x) + gather (S.erase x) f :=
  (Finset.add_sum_erase S (fun x => single (f x)) hx).symm

lemma gather_update (hx : x ∈ S) (o : Option α) :
    gather S (update f x o) + single (f x) = gather S f + single o :=
  sum_update_add single f hx o

/-- A resource is put at an empty place. -/
lemma gather_update_some (hx : x ∈ S) (hf : f x = none) (a : α) :
    gather S (update f x (some a)) = gather S f + {a} := by
  simpa [hf] using gather_update (f := f) hx (some a)

/-- In a duplicate-free collection a resource is held at one place only. -/
lemma gather_inj (h : (gather S f).Nodup) (hx : x ∈ S) (hy : y ∈ S) (hfx : f x = some a)
    (hfy : f y = some a) : x = y := by
  by_contra hxy
  rw [gather_eq_single_add hx, hfx] at h
  have hmem : a ∈ gather (S.erase x) f :=
    mem_gather.mpr ⟨y, Finset.mem_erase.mpr ⟨Ne.symm hxy, hy⟩, hfy⟩
  exact Multiset.disjoint_left.mp (Multiset.nodup_add.mp h).2.2 (Multiset.mem_singleton_self a) hmem

/-! ### Places of several kinds -/

lemma gather_union {S' : Finset ι} (h : Disjoint S S') :
    gather (S ∪ S') f = gather S f + gather S' f := Finset.sum_union h

variable {κ : Type*} {e : κ → ι}

lemma gather_image (he : Injective e) (S : Finset κ) :
    gather (S.image e) f = gather S fun y => f (e y) :=
  Finset.sum_image he.injOn

lemma gather_product {κ' : Type*} (S : Finset κ) (S' : Finset κ') (f : κ × κ' → Option α) :
    gather (S ×ˢ S') f = ∑ x ∈ S, gather S' fun y => f (x, y) :=
  Finset.sum_product ..

/-- A resource that is its own place. -/
lemma gather_self {S : Finset α} {f : α → Option α} (h : ∀ a ∈ S, f a = some a) :
    gather S f = S.val := by
  rw [gather_congr h]
  exact Finset.sum_multiset_singleton S

/-- The resources of a list, by position. -/
lemma gather_range_getElem (l : List α) :
    gather (Finset.range l.length) (fun i => l[i]?) = l := by
  induction l with
  | nil => rfl
  | cons a l ih =>
    rw [gather] at ih ⊢
    rw [List.length_cons, Finset.sum_range_succ']
    simp only [List.getElem?_cons_succ, List.getElem?_cons_zero, single_some, ih]
    rw [add_comm, Multiset.singleton_add, Multiset.cons_coe]

end Update

end Xv6
