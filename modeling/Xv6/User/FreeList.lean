import Xv6.Lib.Links
import Xv6.User.Umalloc

/-!
# The free list

The free blocks of the allocator form a circular list through the static header, in the order of
their addresses.  A block is a `Chunk`: an address and a number of units, the header being the
first of them.  `FreeList m base C` says that the memory `m` holds the list `C`, which starts with
the static header, a chunk of no units.

`free_spec` and `takeUnits_spec` give the two changes of the list: putting a chunk in, which joins
it to its neighbours, and taking units out.  The sizes are 32-bit numbers, so that joining may lose
a multiple of `2 ^ 32` units.
-/

namespace Xv6

open List
namespace Umalloc

/-- A block of memory: where its header is, and its size in units. -/
structure Chunk where
  addr : ℕ
  units : ℕ
deriving DecidableEq

namespace Chunk

/-- The end of a chunk.  A chunk of no units is still a header. -/
def stop (c : Chunk) : ℕ := c.addr + HEADER * max c.units 1

/-- The byte `i` belongs to the chunk. -/
def Has (c : Chunk) (i : ℕ) : Prop := c.addr ≤ i ∧ i < c.stop

/-- The two chunks have no byte in common. -/
def Disjoint (c d : Chunk) : Prop := c.stop ≤ d.addr ∨ d.stop ≤ c.addr

/-- The chunk `c` ends below `d`, and there is something between the two. -/
def Before (c d : Chunk) : Prop := c.stop ≤ d.addr ∧ c.addr + HEADER * c.units ≠ d.addr

variable {c d x : Chunk}

lemma header_le_stop (c : Chunk) : c.addr + HEADER ≤ c.stop := by
  unfold stop HEADER
  omega

lemma units_le_stop (c : Chunk) : c.addr + HEADER * c.units ≤ c.stop := by
  unfold stop HEADER
  omega

lemma stop_eq (h : 1 ≤ c.units) : c.stop = c.addr + HEADER * c.units := by
  rw [stop, max_eq_left h]

lemma has_addr (c : Chunk) : c.Has c.addr := by
  have := c.header_le_stop
  unfold HEADER at this
  exact ⟨le_rfl, by omega⟩

lemma disjoint_iff : c.Disjoint d ↔ ∀ i, c.Has i → ¬d.Has i := by
  constructor
  · rintro h i ⟨h₁, h₂⟩ ⟨h₃, h₄⟩
    unfold Disjoint at h
    omega
  · intro h
    by_contra hn
    unfold Disjoint at hn
    have hc := c.has_addr
    have hd := d.has_addr
    unfold Has at *
    by_cases hle : c.addr ≤ d.addr
    · exact h d.addr ⟨hle, by omega⟩ ⟨by omega, by omega⟩
    · exact h c.addr ⟨by omega, by omega⟩ ⟨by omega, by omega⟩

lemma Disjoint.symm (h : c.Disjoint d) : d.Disjoint c := Or.symm h

lemma Before.lt (h : c.Before d) : c.addr < d.addr := by
  have := c.header_le_stop
  have := h.1
  unfold HEADER at *
  omega

lemma Before.disjoint (h : c.Before d) : c.Disjoint d := Or.inl h.1

lemma Disjoint.stop_le (h : c.Disjoint d) (hlt : c.addr < d.addr) : c.stop ≤ d.addr := by
  have := d.header_le_stop
  unfold HEADER at this
  unfold Disjoint at h
  omega

/-- What is before `d` is before everything that starts above `d`. -/
lemma Before.of_lt (h : c.Before d) (hlt : d.addr < x.addr) : c.Before x := by
  have h₁ := h.1
  have h₂ := c.units_le_stop
  exact ⟨by omega, by omega⟩

/-- Whether a chunk is before `d` depends on the address of `d` only. -/
lemma Before.of_le (h : c.Before d) (hle : d.addr ≤ x.addr) : c.Before x := by
  rcases Nat.lt_or_eq_of_le hle with hlt | heq
  · exact h.of_lt hlt
  · exact ⟨heq ▸ h.1, heq ▸ h.2⟩

end Chunk

/-- The addresses of a list of chunks. -/
abbrev addrs (C : List Chunk) : List ℕ := C.map Chunk.addr

/-- The number of units of a list of chunks. -/
def units (C : List Chunk) : ℕ := (C.map Chunk.units).sum

@[simp] lemma units_nil : units [] = 0 := rfl

@[simp] lemma units_cons (c : Chunk) (C : List Chunk) : units (c :: C) = c.units + units C := by
  simp [units]

@[simp] lemma units_append (C D : List Chunk) : units (C ++ D) = units C + units D := by
  simp [units]

variable {m m' : Bytes} {base bp p fuel : ℕ} {C pre suf : List Chunk} {b c x : Chunk}

/-- The memory holds the chunks of a list, linked to `e`. -/
structure Segment (m : Bytes) (l : List Chunk) (e : ℕ) : Prop where
  links : Linked (ptr m) (addrs l) e
  sizes : ∀ c ∈ l, size m c.addr = c.units

namespace Segment

variable {l : List Chunk} {e : ℕ} {q : Chunk}

lemma append {l' : List Chunk} (h : Segment m l ((addrs l').headD e)) (h' : Segment m l' e) :
    Segment m (l ++ l') e where
  links := by
    rw [addrs, map_append, linked_append]
    exact ⟨h.links, h'.links⟩
  sizes := fun c hc => (mem_append.mp hc).elim (h.sizes c) (h'.sizes c)

lemma left {l' : List Chunk} (h : Segment m (l ++ l') e) : Segment m l ((addrs l').headD e) where
  links := by
    have hl := h.links
    rw [addrs, map_append, linked_append] at hl
    exact hl.1
  sizes := fun c hc => h.sizes c (mem_append_left _ hc)

lemma right {l' : List Chunk} (h : Segment m (l ++ l') e) : Segment m l' e where
  links := by
    have hl := h.links
    rw [addrs, map_append, linked_append] at hl
    exact hl.2
  sizes := fun c hc => h.sizes c (mem_append_right _ hc)

lemma cons (hs : size m x.addr = x.units) (hp : ptr m x.addr = (addrs l).headD e)
    (h : Segment m l e) : Segment m (x :: l) e where
  links := ⟨hp, h.links⟩
  sizes := fun c hc => by
    rcases mem_cons.mp hc with rfl | hc
    · exact hs
    · exact h.sizes c hc

lemma congr (h : Segment m l e) (hm : ∀ c ∈ l, ∀ i, c.addr ≤ i → i < c.addr + 12 → m' i = m i) :
    Segment m' l e where
  links := h.links.congr fun a ha => by
    obtain ⟨c, hc, rfl⟩ := mem_map.mp ha
    exact ptr_congr fun i h₁ h₂ => hm c hc i h₁ (by omega)
  sizes := fun c hc => by
    rw [← h.sizes c hc]
    exact size_congr fun i h₁ h₂ => hm c hc i (by omega) h₂

end Segment

/-- The memory `m` holds the free list `C`, whose first chunk is the static header. -/
structure FreeList (m : Bytes) (base : ℕ) (C : List Chunk) : Prop extends Segment m C base where
  head : ∃ L, C = ⟨base, 0⟩ :: L
  sorted : C.Pairwise Chunk.Before
  bound : ∀ c ∈ C, c.stop ≤ 2 ^ 64

namespace FreeList

section

variable (h : FreeList m base C)
include h

lemma addr_lt (hc : c ∈ C) : c.addr < 2 ^ 64 := by
  have h₁ := h.bound c hc
  have h₂ := c.header_le_stop
  unfold HEADER at h₂
  omega

lemma base_mem : ⟨base, 0⟩ ∈ C := by
  obtain ⟨L, rfl⟩ := h.head
  exact mem_cons_self

lemma base_le (hc : c ∈ C) : base ≤ c.addr := by
  obtain ⟨L, rfl⟩ := h.head
  rcases mem_cons.mp hc with rfl | hc
  · exact le_rfl
  · exact ((pairwise_cons.mp h.sorted).1 c hc).lt.le

lemma nodup : (addrs C).Nodup := by
  refine (pairwise_map.mpr (h.sorted.imp fun hcd => ?_))
  exact hcd.lt.ne

lemma base_disjoint (hc : c ∈ C) (hne : c.addr ≠ base) : (⟨base, 0⟩ : Chunk).Disjoint c := by
  obtain ⟨L, rfl⟩ := h.head
  rcases mem_cons.mp hc with rfl | hc
  · exact absurd rfl hne
  · exact ((pairwise_cons.mp h.sorted).1 c hc).disjoint

/-- The free list depends on the headers of its chunks only. -/
lemma congr (hm : ∀ c ∈ C, ∀ i, c.addr ≤ i → i < c.addr + 12 → m' i = m i) :
    FreeList m' base C where
  toSegment := h.toSegment.congr hm
  head := h.head
  sorted := h.sorted
  bound := h.bound

/-- The place of an address above the static header: after the last chunk below it. -/
lemma split_at {a : ℕ} (ha : base < a) (hne : a ∉ addrs C) :
    ∃ pre b suf, C = pre ++ b :: suf ∧ (∀ c ∈ pre, c.addr < b.addr) ∧ b.addr < a ∧
      ∀ c ∈ suf, a < c.addr := by
  have hgen : ∀ D : List Chunk, D.Pairwise Chunk.Before → a ∉ addrs D →
      ∃ xs ys, D = xs ++ ys ∧ (∀ c ∈ xs, c.addr < a) ∧ ∀ c ∈ ys, a < c.addr := by
    intro D hD hnot
    induction D with
    | nil => exact ⟨[], [], rfl, by simp, by simp⟩
    | cons d D ih =>
      obtain ⟨hd, hD⟩ := pairwise_cons.mp hD
      simp only [addrs, map_cons, mem_cons, not_or] at hnot
      by_cases hlt : d.addr < a
      · obtain ⟨xs, ys, rfl, hxs, hys⟩ := ih hD hnot.2
        exact ⟨d :: xs, ys, rfl, by simpa using ⟨hlt, hxs⟩, hys⟩
      · refine ⟨[], d :: D, rfl, by simp, fun c hc => ?_⟩
        rcases mem_cons.mp hc with rfl | hc
        · omega
        · have := (hd c hc).lt
          omega
  obtain ⟨xs, ys, rfl, hxs, hys⟩ := hgen C h.sorted hne
  have hxs' : xs ≠ [] := by
    rintro rfl
    have := hys _ h.base_mem
    dsimp only at this
    omega
  obtain ⟨pre, b, rfl⟩ := eq_nil_or_concat xs |>.resolve_left hxs'
  simp only [concat_eq_append] at *
  refine ⟨pre, b, ys, by simp, fun c hc => ?_, hxs b (by simp), hys⟩
  have hs := (pairwise_append.mp h.sorted).1
  exact ((pairwise_append.mp hs).2.2 c hc b (by simp)).lt

end

/-- The successor of a chunk of the list. -/
lemma ptr_eq (h : FreeList m base (pre ++ b :: suf)) :
    ptr m b.addr = (addrs suf).headD base := by
  have hl := h.links
  rw [addrs, map_append, linked_append] at hl
  exact hl.2.1

lemma before_of_mem (h : FreeList m base (pre ++ b :: suf)) (hc : c ∈ suf) : b.Before c :=
  (pairwise_cons.mp (pairwise_append.mp h.sorted).2.1).1 c hc

end FreeList

/-! ## The search of `free` -/

section Search

variable {a : ℕ}

/-- From a chunk up to the place of `a`, the search moves forward to that place. -/
lemma freeLoop_forward (h : FreeList m base (pre ++ b :: suf)) (hb : b.addr < a)
    (hsuf : ∀ c ∈ suf, a < c.addr) (xs : List Chunk) :
    (∃ ys, pre = ys ++ xs) →
      ∀ fuel, freeLoop m a (xs.length + 1 + fuel) ((addrs (xs ++ [b])).headD base) =
        some b.addr := by
  induction xs with
  | nil =>
    intro _ fuel
    have hbase : base ≤ b.addr := h.base_le (by simp)
    simp only [length_nil, Nat.zero_add, Nat.add_comm 1 fuel, nil_append, addrs,
      map_cons, headD_cons, freeLoop]
    have hnext := h.ptr_eq
    cases suf with
    | nil =>
      -- the last chunk: the list wraps around here
      rw [addrs, map_nil, headD_nil] at hnext
      rw [hnext, if_neg (by omega), if_pos ⟨hbase, Or.inl hb⟩]
    | cons c suf =>
      rw [addrs, map_cons, headD_cons] at hnext
      rw [hnext, if_pos ⟨hb, hsuf c mem_cons_self⟩]
  | cons y xs ih =>
    rintro ⟨ys, rfl⟩ fuel
    have ih := ih ⟨ys ++ [y], by simp⟩ fuel
    have hy : FreeList m base (ys ++ y :: (xs ++ b :: suf)) := by simpa using h
    have hnext : ptr m y.addr = (addrs (xs ++ [b])).headD base := by
      rw [hy.ptr_eq]
      cases xs <;> rfl
    have hmem : ∃ c ∈ xs ++ b :: suf, (addrs (xs ++ [b])).headD base = c.addr ∧
        c.addr ≤ b.addr := by
      cases xs with
      | nil => exact ⟨b, by simp, rfl, le_rfl⟩
      | cons z xs =>
        refine ⟨z, by simp, rfl, ?_⟩
        have hz : FreeList m base ((ys ++ [y]) ++ z :: (xs ++ b :: suf)) := by simpa using h
        exact (hz.before_of_mem (by simp)).lt.le
    obtain ⟨c, hc, hcx, hcb⟩ := hmem
    have hlt := (hy.before_of_mem hc).lt
    rw [show (y :: xs).length + 1 + fuel = xs.length + 1 + fuel + 1 by simp; omega]
    simp only [cons_append, addrs, map_cons, headD_cons, freeLoop]
    rw [hnext, hcx, if_neg (by omega), if_neg (by omega), ← hcx, ih]

/-- From a chunk above the place of `a`, the search moves on to the static header. -/
lemma freeLoop_wrap (ha : base < a) (xs : List Chunk) :
    ∀ pre, FreeList m base (pre ++ xs) → (∀ c ∈ xs, a < c.addr) →
      ∀ fuel, freeLoop m a (xs.length + fuel) ((addrs xs).headD base) = freeLoop m a fuel base := by
  induction xs with
  | nil =>
    intro _ _ _ fuel
    simp
  | cons y xs ih =>
    intro pre h hxs fuel
    have hay := hxs y mem_cons_self
    have hnext := h.ptr_eq
    have ih := ih (pre ++ [y]) (by simpa using h) (fun c hc => hxs c (mem_cons_of_mem _ hc))
      fuel
    rw [show (y :: xs).length + fuel = xs.length + fuel + 1 by simp; omega]
    simp only [addrs, map_cons, headD_cons, freeLoop]
    cases xs with
    | nil =>
      rw [addrs, map_nil, headD_nil] at hnext
      rw [hnext, if_neg (by omega), if_neg (by omega)]
      simp
    | cons z xs =>
      have hlt := (h.before_of_mem (c := z) (by simp)).lt
      rw [addrs, map_cons, headD_cons] at hnext
      rw [hnext, if_neg (by omega), if_neg (by omega)]
      simpa using ih

/-- The search of `free` ends, wherever it starts, at the last chunk below the address. -/
lemma freeLoop_spec (h : FreeList m base (pre ++ b :: suf)) (ha : base < a) (hb : b.addr < a)
    (hsuf : ∀ c ∈ suf, a < c.addr) (hp : p ∈ addrs (pre ++ b :: suf)) :
    ∀ fuel, freeLoop m a ((pre ++ b :: suf).length + 1 + fuel) p = some b.addr := by
  intro fuel
  obtain ⟨c, hc, rfl⟩ := mem_map.mp hp
  have hforward : ∀ c ∈ pre ++ [b], ∀ n, pre.length + 1 ≤ n → freeLoop m a n c.addr = some b.addr := by
    intro c hc n hn
    obtain ⟨ys, xs, hsplit⟩ := append_of_mem hc
    obtain ⟨zs, b', hzs⟩ := (c :: xs).eq_nil_or_concat.resolve_left (by simp)
    rw [concat_eq_append] at hzs
    rw [hzs, ← append_assoc] at hsplit
    obtain ⟨rfl, hbb⟩ := append_inj' hsplit rfl
    obtain rfl : b = b' := by simpa using hbb
    have hlen : (ys ++ zs).length + 1 ≤ n := hn
    rw [length_append] at hlen
    have hgo := freeLoop_forward h hb hsuf zs ⟨ys, rfl⟩ (n - (zs.length + 1))
    rw [← hzs, Nat.add_sub_cancel' (by omega)] at hgo
    simpa using hgo
  have hlen : (pre ++ b :: suf).length = pre.length + 1 + suf.length := by simp; omega
  rcases mem_append.mp (show c ∈ (pre ++ [b]) ++ suf by simpa using hc) with hc | hc
  · exact hforward c hc _ (by omega)
  · obtain ⟨ys, zs, rfl⟩ := append_of_mem hc
    have hwrap := freeLoop_wrap (m := m) ha (c :: zs) (pre ++ b :: ys)
      (by simpa using h) (fun d hd => hsuf d (by simp at hd ⊢; tauto))
      (pre.length + 1 + ys.length + 1 + fuel)
    simp only [addrs, map_cons, headD_cons] at hwrap
    rw [show (pre ++ b :: (ys ++ c :: zs)).length + 1 + fuel =
      (c :: zs).length + (pre.length + 1 + ys.length + 1 + fuel) by simp; omega, hwrap]
    obtain ⟨L, hL⟩ := h.head
    have hbase : (⟨base, 0⟩ : Chunk) ∈ pre ++ [b] := by
      cases pre with
      | nil => simpa using (List.cons.inj hL).1.symm
      | cons d pre => simpa using Or.inl (List.cons.inj hL).1.symm
    exact hforward _ hbase _ (by omega)

end Search

/-! ## Joining neighbours -/

/-- Put a chunk in front of a list, joined to the first chunk of it if the two are neighbours. -/
def join (x : Chunk) : List Chunk → List Chunk
  | [] => [x]
  | q :: l =>
    if x.addr + HEADER * x.units = q.addr then ⟨x.addr, (x.units + q.units) % 2 ^ 32⟩ :: l
    else x :: q :: l

section Join

variable {l : List Chunk} {q : Chunk}

lemma join_cons (x q : Chunk) (l : List Chunk) : join x (q :: l) =
    if x.addr + HEADER * x.units = q.addr then ⟨x.addr, (x.units + q.units) % 2 ^ 32⟩ :: l
    else x :: q :: l := rfl

lemma join_eq_cons (x : Chunk) (l : List Chunk) : ∃ u l', join x l = ⟨x.addr, u⟩ :: l' := by
  cases l with
  | nil => exact ⟨x.units, [], rfl⟩
  | cons q l =>
    rw [join_cons]
    split
    · exact ⟨_, _, rfl⟩
    · exact ⟨x.units, _, rfl⟩

/-- A chunk of the joined list is the new one, or one that was there. -/
lemma addr_mem_join (hc : c ∈ join x l) : c.addr = x.addr ∨ c ∈ l := by
  cases l with
  | nil => exact Or.inl (by rw [mem_singleton.mp hc])
  | cons q l =>
    rw [join_cons] at hc
    split at hc
    · rcases mem_cons.mp hc with rfl | hc
      · exact Or.inl rfl
      · exact Or.inr (mem_cons_of_mem _ hc)
    · rcases mem_cons.mp hc with rfl | hc
      · exact Or.inl rfl
      · exact Or.inr hc

/-- Joining loses nothing but what does not fit 32 bits. -/
lemma units_join (x : Chunk) (l : List Chunk) :
    ∃ lost, units (join x l) + 2 ^ 32 * lost = x.units + units l := by
  cases l with
  | nil => exact ⟨0, by simp [join]⟩
  | cons q l =>
    rw [join_cons]
    split
    · refine ⟨(x.units + q.units) / 2 ^ 32, ?_⟩
      simp only [units_cons]
      omega
    · exact ⟨0, by simp⟩

/-- The end of two neighbours joined. -/
lemma stop_joined (hlt : x.addr < q.addr) (hadj : x.addr + HEADER * x.units = q.addr) :
    (⟨x.addr, (x.units + q.units) % 2 ^ 32⟩ : Chunk).stop ≤ q.stop := by
  unfold Chunk.stop
  dsimp only
  unfold HEADER at *
  omega

lemma has_join (hl : ∀ c ∈ l, x.stop ≤ c.addr) (hc : c ∈ join x l) {i : ℕ} (hi : c.Has i) :
    ∃ d ∈ x :: l, d.Has i := by
  cases l with
  | nil => exact ⟨c, hc, hi⟩
  | cons q l =>
    rw [join_cons] at hc
    split at hc
    next hadj =>
      rcases mem_cons.mp hc with rfl | hc
      · have h₁ := hl q mem_cons_self
        have h₂ := x.header_le_stop
        have h₃ := x.units_le_stop
        have h₄ := stop_joined (x := x) (q := q) (by unfold HEADER at h₂; omega) hadj
        obtain ⟨hi₁, hi₂⟩ := hi
        dsimp only at hi₁
        by_cases hxi : i < x.stop
        · exact ⟨x, by simp, hi₁, hxi⟩
        · exact ⟨q, by simp, by omega, by omega⟩
      · exact ⟨c, by simp [hc], hi⟩
    · exact ⟨c, hc, hi⟩

lemma bound_join (hl : ∀ c ∈ l, x.stop ≤ c.addr) (hb : ∀ c ∈ x :: l, c.stop ≤ 2 ^ 64)
    (hc : c ∈ join x l) : c.stop ≤ 2 ^ 64 := by
  have hlast : c.Has (c.stop - 1) := by
    have := c.header_le_stop
    unfold HEADER at this
    exact ⟨by omega, by omega⟩
  obtain ⟨d, hd, h₁, h₂⟩ := has_join hl hc hlast
  have := hb d hd
  omega

lemma sorted_join (hs : l.Pairwise Chunk.Before) (hl : ∀ c ∈ l, x.stop ≤ c.addr) :
    (join x l).Pairwise Chunk.Before := by
  cases l with
  | nil => exact pairwise_singleton _ _
  | cons q l =>
    obtain ⟨hq, hs'⟩ := pairwise_cons.mp hs
    have hxq := hl q mem_cons_self
    have hxu := x.units_le_stop
    have hxh := x.header_le_stop
    rw [join_cons]
    split
    next hadj =>
      have hstop := stop_joined (x := x) (q := q) (by unfold HEADER at hxh; omega) hadj
      refine pairwise_cons.mpr ⟨fun c hc => ⟨hstop.trans (hq c hc).1, ?_⟩, hs'⟩
      have h₁ := (hq c hc).1
      have h₂ := (hq c hc).2
      have h₃ := q.units_le_stop
      dsimp only
      unfold HEADER at *
      omega
    next hadj =>
      refine pairwise_cons.mpr ⟨fun c hc => ⟨hl c hc, ?_⟩, hs⟩
      rcases mem_cons.mp hc with rfl | hc
      · exact hadj
      · have := (hq c hc).lt
        omega

end Join

section Stores

variable {l : List Chunk} {q : Chunk}

lemma plus_eq_iff {a : ℕ} (hx : x.stop ≤ 2 ^ 64) (ha₀ : 0 < a) (ha : a < 2 ^ 64) :
    plus x.addr x.units = a ↔ x.addr + HEADER * x.units = a := by
  have hle := x.units_le_stop
  unfold plus
  rcases Nat.lt_or_eq_of_le (hle.trans hx) with hlt | heq
  · rw [Nat.mod_eq_of_lt hlt]
  · rw [heq, Nat.mod_self]
    omega

/-- The header of `x` becomes the first one of the joined list. -/
lemma joinUpper_spec (h : Segment m (b :: suf) base) (hbase : 0 < base) (hxbase : base < x.addr)
    (hsize : size m x.addr = x.units) (hstop : x.stop ≤ 2 ^ 64)
    (hbound : ∀ c ∈ suf, c.stop ≤ 2 ^ 64) (hbx : b.stop ≤ x.addr)
    (hsuf : ∀ c ∈ suf, x.stop ≤ c.addr) :
    Segment (joinUpper m x.addr b.addr) (join x suf) base ∧
      ∀ i, (i < x.addr ∨ x.addr + 12 ≤ i) → joinUpper m x.addr b.addr i = m i := by
  have hnext : ptr m b.addr = (addrs suf).headD base := h.links.1
  have hrest : Segment m suf base := Segment.right (l := [b]) h
  have hxh := x.header_le_stop
  have hbh := b.header_le_stop
  have hxlt : x.addr < 2 ^ 64 := by
    unfold HEADER at hxh
    omega
  have hframe : ∀ {n v i}, (i < x.addr ∨ x.addr + 12 ≤ i) →
      setPtr (setSize m x.addr n) x.addr v i = m i := fun hi => by
    rw [setPtr_of_notMem (by omega), setSize_of_notMem (by omega)]
  have hframe' : ∀ {v i}, (i < x.addr ∨ x.addr + 12 ≤ i) → setPtr m x.addr v i = m i := fun hi =>
    setPtr_of_notMem (by omega)
  have haway : ∀ c ∈ suf, ∀ i, c.addr ≤ i → x.addr + 12 ≤ i := fun c hc i hi => by
    have := hsuf c hc
    unfold HEADER at hxh
    omega
  unfold joinUpper
  rw [hsize, hnext]
  cases suf with
  | nil =>
    have hne : ¬plus x.addr x.units = base := by
      rw [plus_eq_iff hstop hbase (by omega)]
      omega
    simp only [addrs, map_nil, headD_nil, if_neg hne, join]
    refine ⟨Segment.cons (by rw [size_setPtr_self, hsize]) ?_ ⟨linked_nil, by simp⟩,
      fun i hi => hframe' hi⟩
    rw [ptr_setPtr_self (by omega)]
    rfl
  | cons q suf =>
    have hxq := hsuf q mem_cons_self
    have hqh := q.header_le_stop
    have hqstop := hbound q mem_cons_self
    have hqlt : q.addr < 2 ^ 64 := by
      unfold HEADER at hqh
      omega
    have hqsize : size m q.addr = q.units := hrest.sizes q mem_cons_self
    have hqnext : ptr m q.addr = (addrs suf).headD base := hrest.links.1
    simp only [addrs, map_cons, headD_cons, join_cons,
      plus_eq_iff hstop (show 0 < q.addr by omega) hqlt]
    by_cases hadj : x.addr + HEADER * x.units = q.addr
    · simp only [if_pos hadj]
      have hb' : ptr (setSize m x.addr (x.units + size m q.addr)) b.addr = q.addr := by
        rw [ptr_setSize_of_disjoint (Or.inl (hbh.trans hbx)), hnext]
        rfl
      have hq' : ptr (setSize m x.addr (x.units + size m q.addr)) q.addr =
          (addrs suf).headD base := by
        rw [ptr_setSize_of_disjoint (Or.inr (hxh.trans hxq)), hqnext]
      have hlt : (addrs suf).headD base < 2 ^ 64 := by
        cases suf with
        | nil => exact lt_trans hxbase hxlt
        | cons c suf =>
          have h₁ := hbound c (by simp)
          have h₂ := c.header_le_stop
          unfold HEADER at h₂
          simp only [addrs, map_cons, headD_cons]
          omega
      rw [hb', hq']
      refine ⟨Segment.cons ?_ (ptr_setPtr_self hlt) ?_, fun i hi => hframe hi⟩
      · rw [size_setPtr_self, size_setSize_self, hqsize]
      · refine (Segment.right (l := [q]) hrest).congr fun c hc i h₁ h₂ => hframe (Or.inr ?_)
        exact haway c (mem_cons_of_mem _ hc) i h₁
    · simp only [if_neg hadj]
      refine ⟨Segment.cons (by rw [size_setPtr_self, hsize]) (ptr_setPtr_self hqlt) ?_,
        fun i hi => hframe' hi⟩
      exact hrest.congr fun c hc i h₁ h₂ => hframe' (Or.inr (haway c hc i h₁))

/-- The header of `b` becomes the first one of the joined list. -/
lemma joinLower_spec (h : Segment m (x :: l) base) (hsize : size m b.addr = b.units)
    (hxlt : x.addr < 2 ^ 64) (hbx : b.stop ≤ x.addr) (hl : ∀ c ∈ l, x.addr < c.addr)
    (hlt : (addrs l).headD base < 2 ^ 64) :
    Segment (joinLower m x.addr b.addr) (join b (x :: l)) base ∧
      ∀ i, (i < b.addr ∨ b.addr + 12 ≤ i) → joinLower m x.addr b.addr i = m i := by
  have hbh := b.header_le_stop
  have hxsize : size m x.addr = x.units := h.sizes x mem_cons_self
  have hxnext : ptr m x.addr = (addrs l).headD base := h.links.1
  have haway : ∀ c ∈ x :: l, ∀ i, c.addr ≤ i → b.addr + 12 ≤ i := fun c hc i hi => by
    unfold HEADER at hbh
    rcases mem_cons.mp hc with rfl | hc
    · omega
    · have := hl c hc
      omega
  unfold joinLower
  rw [hsize, hxsize, join_cons]
  simp only [plus_eq_iff (x := b) (hbx.trans hxlt.le) (show 0 < x.addr by unfold HEADER at hbh; omega)
    hxlt]
  by_cases hadj : b.addr + HEADER * b.units = x.addr
  · simp only [if_pos hadj]
    have hframe : ∀ {n v i}, (i < b.addr ∨ b.addr + 12 ≤ i) →
        setPtr (setSize m b.addr n) b.addr v i = m i := fun hi => by
      rw [setPtr_of_notMem (by omega), setSize_of_notMem (by omega)]
    rw [ptr_setSize_of_disjoint (Or.inr (hbh.trans hbx)), hxnext]
    refine ⟨Segment.cons ?_ (ptr_setPtr_self hlt) ?_, fun i hi => hframe hi⟩
    · rw [size_setPtr_self, size_setSize_self]
    · exact (Segment.right (l := [x]) h).congr fun c hc i h₁ h₂ =>
        hframe (Or.inr (haway c (mem_cons_of_mem _ hc) i h₁))
  · simp only [if_neg hadj]
    have hframe : ∀ {v i}, (i < b.addr ∨ b.addr + 12 ≤ i) → setPtr m b.addr v i = m i := fun hi =>
      setPtr_of_notMem (by omega)
    refine ⟨Segment.cons ?_ (ptr_setPtr_self hxlt) ?_, fun i hi => hframe hi⟩
    · rw [size_setPtr_self, hsize]
    · exact h.congr fun c hc i h₁ h₂ => hframe (Or.inr (haway c hc i h₁))

end Stores

/-! ## Freeing a chunk -/

/-- What the list `C'` has of the list `C` into which `x` was put. -/
structure Freed (C : List Chunk) (x : Chunk) (C' : List Chunk) : Prop where
  units : ∃ lost, units C' + 2 ^ 32 * lost = units C + x.units
  has : ∀ c ∈ C', ∀ i, c.Has i → ∃ d ∈ x :: C, d.Has i
  -- without overflow there is a chunk at least as large
  large : x.units < 2 ^ 28 → (∀ c ∈ C, c.units < 2 ^ 28) → ∃ c ∈ C', x.units ≤ c.units

lemma freed_join (hb : b.stop ≤ x.addr) (hsuf : ∀ c ∈ suf, x.stop ≤ c.addr) :
    Freed (pre ++ b :: suf) x (pre ++ join b (join x suf)) := by
  have hafter : ∀ c ∈ join x suf, b.stop ≤ c.addr := fun c hc => by
    have := x.header_le_stop
    rcases addr_mem_join hc with h | h
    · omega
    · have := hsuf c h
      omega
  refine ⟨?_, fun c hc i hi => ?_, fun hx hC => ?_⟩
  · obtain ⟨k₁, h₁⟩ := units_join x suf
    obtain ⟨k₂, h₂⟩ := units_join b (join x suf)
    refine ⟨k₁ + k₂, ?_⟩
    simp only [units_append, units_cons]
    omega
  · rcases mem_append.mp hc with hc | hc
    · exact ⟨c, by simp [hc], hi⟩
    · obtain ⟨d, hd, hdi⟩ := has_join hafter hc hi
      rcases mem_cons.mp hd with rfl | hd
      · exact ⟨d, by simp, hdi⟩
      · obtain ⟨d', hd', hdi'⟩ := has_join hsuf hd hdi
        exact ⟨d', by simp at hd' ⊢; tauto, hdi'⟩
  · have hbu : b.units < 2 ^ 28 := hC b (by simp)
    have hsu : ∀ c ∈ suf, c.units < 2 ^ 28 := fun c hc => hC c (by simp [hc])
    -- the chunk that holds `x` comes first in `join x suf`, and `b` may be joined to it
    have hfirst : ∃ u l, join x suf = ⟨x.addr, u⟩ :: l ∧ x.units ≤ u ∧ u < 2 ^ 29 := by
      cases suf with
      | nil => exact ⟨x.units, [], rfl, le_rfl, by omega⟩
      | cons q l =>
        have hq := hsu q mem_cons_self
        rw [join_cons]
        split
        · exact ⟨_, _, rfl, by omega, by omega⟩
        · exact ⟨x.units, _, rfl, le_rfl, by omega⟩
    obtain ⟨u, l, hl, hu, hu'⟩ := hfirst
    rw [hl, join_cons]
    split
    · exact ⟨⟨b.addr, (b.units + u) % 2 ^ 32⟩, by simp, by dsimp only; omega⟩
    · exact ⟨⟨x.addr, u⟩, by simp, hu⟩

/-- **Freeing a chunk.**  With enough rounds `free` puts the chunk into the list. -/
lemma free_spec {h : Heap} (hf : FreeList h.mem base C) (hbase : 0 < base)
    (hfreep : h.freep ∈ addrs C) (hxbase : base < x.addr) (hsize : size h.mem x.addr = x.units)
    (hstop : x.stop ≤ 2 ^ 64) (hdisj : ∀ c ∈ C, x.Disjoint c) :
    ∃ m' p C', (∀ fuel, C.length + 1 ≤ fuel →
        free fuel (x.addr + HEADER) h = some { h with mem := m', freep := p }) ∧
      FreeList m' base C' ∧ p ∈ addrs C' ∧ Freed C x C' ∧
      ∀ i, (∀ c ∈ x :: C, ¬c.Has i) → m' i = h.mem i := by
  have hne : x.addr ∉ addrs C := fun hmem => by
    obtain ⟨c, hc, hcx⟩ := mem_map.mp hmem
    exact Chunk.disjoint_iff.mp (hdisj c hc) x.addr x.has_addr (hcx ▸ c.has_addr)
  obtain ⟨pre, b, suf, rfl, hpre, hb, hsuf⟩ := hf.split_at hxbase hne
  have hbx : b.stop ≤ x.addr := (hdisj b (by simp)).symm.stop_le hb
  have hxsuf : ∀ c ∈ suf, x.stop ≤ c.addr := fun c hc =>
    (hdisj c (by simp [hc])).stop_le (hsuf c hc)
  have hprex : ∀ c ∈ pre, c.stop ≤ b.addr := fun c hc =>
    ((pairwise_append.mp hf.sorted).2.2 c hc b mem_cons_self).1
  have hxh := x.header_le_stop
  have hbh := b.header_le_stop
  have hxlt : x.addr < 2 ^ 64 := by
    unfold HEADER at hxh
    omega
  have hboundSuf : ∀ c ∈ suf, c.stop ≤ 2 ^ 64 := fun c hc => hf.bound c (by simp [hc])
  -- the two stores
  obtain ⟨hup, hupf⟩ := joinUpper_spec (Segment.right hf.toSegment) hbase hxbase hsize hstop
    hboundSuf hbx hxsuf
  obtain ⟨u, l, hl⟩ := join_eq_cons x suf
  have hlsub : ∀ c ∈ l, x.addr < c.addr ∧ c.stop ≤ 2 ^ 64 := fun c hc => by
    have hs := sorted_join (pairwise_cons.mp (pairwise_append.mp hf.sorted).2.1).2 hxsuf
    have hbd : ∀ c ∈ join x suf, c.stop ≤ 2 ^ 64 := fun c hc =>
      bound_join hxsuf (by simpa using ⟨hstop, hboundSuf⟩) hc
    rw [hl] at hs hbd
    exact ⟨((pairwise_cons.mp hs).1 c hc).lt, hbd c (by simp [hc])⟩
  have hlt : (addrs l).headD base < 2 ^ 64 := by
    cases l with
    | nil => exact lt_trans hxbase hxlt
    | cons c l =>
      have h₁ := (hlsub c mem_cons_self).2
      have h₂ := c.header_le_stop
      unfold HEADER at h₂
      simp only [addrs, map_cons, headD_cons]
      omega
  have hbsize : size (joinUpper h.mem x.addr b.addr) b.addr = b.units := by
    rw [← hf.sizes b (by simp)]
    exact size_congr fun i h₁ h₂ => hupf i (by unfold HEADER at hbh; omega)
  obtain ⟨hlow, hlowf⟩ := joinLower_spec (b := b) (x := ⟨x.addr, u⟩) (l := l) (by rwa [← hl]) hbsize hxlt
    hbx (fun c hc => (hlsub c hc).1) hlt
  dsimp only at hlow hlowf
  rw [← hl] at hlow
  -- the new list
  have hafter : ∀ c ∈ join x suf, b.stop ≤ c.addr := fun c hc => by
    rcases addr_mem_join hc with h | h
    · omega
    · have := hxsuf c h
      omega
  have hframe : ∀ i, (∀ c ∈ x :: (pre ++ b :: suf), ¬c.Has i) →
      joinLower (joinUpper h.mem x.addr b.addr) x.addr b.addr i = h.mem i := fun i hi => by
    have hxi := hi x (by simp)
    have hbi := hi b (by simp)
    unfold Chunk.Has HEADER at *
    rw [hlowf i (by omega), hupf i (by omega)]
  refine ⟨_, b.addr, pre ++ join b (join x suf), fun fuel hfuel => ?_, ?_, ?_,
    freed_join hbx hxsuf, hframe⟩
  · have hloop := freeLoop_spec hf hxbase hb hsuf hfreep (fuel - ((pre ++ b :: suf).length + 1))
    rw [Nat.add_sub_cancel' hfuel] at hloop
    simp only [free, Nat.add_sub_cancel, hloop, Option.map_some]
  · refine ⟨Segment.append ?_ hlow, ?_, ?_, ?_⟩
    · obtain ⟨u', l', hl'⟩ := join_eq_cons b (join x suf)
      rw [hl']
      refine (Segment.left hf.toSegment).congr fun c hc i h₁ h₂ => ?_
      have hc₁ := hprex c hc
      have hc₂ := c.header_le_stop
      unfold HEADER at *
      rw [hlowf i (by omega), hupf i (by omega)]
    · obtain ⟨L, hL⟩ := hf.head
      cases pre with
      | nil =>
        obtain rfl : b = ⟨base, 0⟩ := (List.cons.inj hL).1
        obtain ⟨u', l', hl'⟩ := join_eq_cons x suf
        -- the static header has no units: nothing is joined to it
        refine ⟨join x suf, ?_⟩
        rw [nil_append, hl', join_cons, if_neg]
        dsimp only
        omega
      | cons c pre => exact ⟨pre ++ join b (join x suf), by rw [(List.cons.inj hL).1]; rfl⟩
    · have hs := pairwise_append.mp hf.sorted
      refine pairwise_append.mpr ⟨hs.1, sorted_join (sorted_join ?_ hxsuf) hafter,
        fun c hc d hd => ?_⟩
      · exact (pairwise_cons.mp hs.2.1).2
      · have hcb := hs.2.2 c hc b mem_cons_self
        rcases addr_mem_join hd with h | h
        · exact hcb.of_le h.ge
        · have := hafter d h
          exact hcb.of_le (by unfold HEADER at hbh; omega)
    · intro c hc
      rcases mem_append.mp hc with hc | hc
      · exact hf.bound c (by simp [hc])
      · refine bound_join hafter (fun d hd => ?_) hc
        rcases mem_cons.mp hd with rfl | hd
        · exact hf.bound d (by simp)
        · exact bound_join hxsuf (by simpa using ⟨hstop, hboundSuf⟩) hd
  · obtain ⟨u', l', hl'⟩ := join_eq_cons b (join x suf)
    rw [hl']
    simp

/-! ## Taking units -/

/-- What the list `C'` has of the list `C` from which `x` was taken. -/
structure Taken (C : List Chunk) (x : Chunk) (C' : List Chunk) : Prop where
  units : units C' + x.units = units C
  has : ∀ c ∈ C', ∀ i, c.Has i → ∃ d ∈ C, d.Has i
  inside : ∃ p ∈ C, p.units ≠ 0 ∧ ∀ i, x.Has i → p.Has i
  disjoint : ∀ c ∈ C', x.Disjoint c

variable {n : ℕ}

/-- The chunk is taken as a whole. -/
lemma taken_whole (h : FreeList m base (pre ++ b :: x :: suf)) (hx : x.units ≠ 0) :
    Taken (pre ++ b :: x :: suf) x (pre ++ b :: suf) := by
  have hs := pairwise_append.mp h.sorted
  refine ⟨?_, fun c hc i hi => ⟨c, ?_, hi⟩, ⟨x, by simp, hx, fun i hi => hi⟩, fun c hc => ?_⟩
  · simp only [units_append, units_cons]
    omega
  · simp at hc ⊢
    tauto
  · have hx := (pairwise_cons.mp hs.2.1).2
    simp only [mem_append, mem_cons] at hc
    rcases hc with hc | rfl | hc
    · exact (hs.2.2 c hc x (by simp)).disjoint.symm
    · exact ((pairwise_cons.mp hs.2.1).1 x (by simp)).disjoint.symm
    · exact ((pairwise_cons.mp hx).1 c hc).disjoint

/-- The chunk keeps its first units, the others are taken. -/
lemma taken_tail (h : FreeList m base (pre ++ b :: x :: suf)) (hn : 1 ≤ n) (hlt : n < x.units) :
    Taken (pre ++ b :: x :: suf) ⟨x.addr + HEADER * (x.units - n), n⟩
      (pre ++ b :: ⟨x.addr, x.units - n⟩ :: suf) := by
  have hxstop : x.stop = x.addr + HEADER * x.units := Chunk.stop_eq (by omega)
  have hsub : ∀ i, (⟨x.addr, x.units - n⟩ : Chunk).Has i → x.Has i := fun i hi => by
    unfold Chunk.Has Chunk.stop at *
    dsimp only at hi
    unfold HEADER at *
    omega
  have hsub' : ∀ i, (⟨x.addr + HEADER * (x.units - n), n⟩ : Chunk).Has i → x.Has i := fun i hi => by
    unfold Chunk.Has Chunk.stop at *
    dsimp only at hi
    unfold HEADER at *
    omega
  have hwhole := taken_whole h (by omega)
  refine ⟨?_, fun c hc i hi => ?_, ⟨x, by simp, by omega, hsub'⟩, fun c hc => ?_⟩
  · simp only [units_append, units_cons]
    omega
  · simp only [mem_append, mem_cons] at hc
    rcases hc with hc | rfl | rfl | hc
    · exact ⟨c, by simp [hc], hi⟩
    · exact ⟨c, by simp, hi⟩
    · exact ⟨x, by simp, hsub i hi⟩
    · exact ⟨c, by simp [hc], hi⟩
  · simp only [mem_append, mem_cons] at hc
    by_cases hcx : c = ⟨x.addr, x.units - n⟩
    · subst hcx
      right
      rw [Chunk.stop_eq (by dsimp only; omega)]
    · refine Chunk.disjoint_iff.mpr fun i hi => ?_
      refine Chunk.disjoint_iff.mp (hwhole.disjoint c ?_) i (hsub' i hi)
      simp only [mem_append, mem_cons]
      tauto

/-- **Taking units.**  The result is the address after the header of a chunk of `n` units. -/
lemma takeUnits_spec {h : Heap} (hf : FreeList h.mem base (pre ++ b :: c :: suf)) (hn : 1 ≤ n)
    (hnlt : n < 2 ^ 32) (hc : n ≤ c.units) :
    ∃ x m' C', takeUnits n b.addr c.addr h =
        (plus x.addr 1, { h with mem := m', freep := b.addr }) ∧ x.units = n ∧
      FreeList m' base C' ∧ b.addr ∈ addrs C' ∧ size m' x.addr = n ∧
      Taken (pre ++ b :: c :: suf) x C' ∧
      ∀ i, (∀ d ∈ pre ++ b :: c :: suf, ¬d.Has i) → m' i = h.mem i := by
  have hs := pairwise_append.mp hf.sorted
  have hbc : b.Before c := (pairwise_cons.mp hs.2.1).1 c mem_cons_self
  have hcs := (pairwise_cons.mp hs.2.1).2
  have hcsize : size h.mem c.addr = c.units := hf.sizes c (by simp)
  have hcnext : ptr h.mem c.addr = (addrs suf).headD base :=
    (show FreeList h.mem base ((pre ++ [b]) ++ c :: suf) by simpa using hf).ptr_eq
  have hbh := b.header_le_stop
  have hch := c.header_le_stop
  have hbound := hf.bound c (by simp)
  have hstop : c.stop = c.addr + HEADER * c.units := Chunk.stop_eq (by omega)
  have hprec : ∀ d ∈ pre, d.stop ≤ b.addr := fun d hd => (hs.2.2 d hd b (by simp)).1
  have hsufc : ∀ d ∈ suf, c.stop ≤ d.addr := fun d hd => ((pairwise_cons.mp hcs).1 d hd).1
  have hbc₁ := hbc.1
  have hpre : Segment h.mem pre b.addr := Segment.left hf.toSegment
  unfold takeUnits
  rw [hcsize]
  by_cases heq : c.units = n
  · rw [if_pos heq, hcnext]
    have hlt : (addrs suf).headD base < 2 ^ 64 := by
      cases suf with
      | nil => exact hf.addr_lt hf.base_mem
      | cons d suf => exact hf.addr_lt (c := d) (by simp)
    have hframe : ∀ i, (i < b.addr ∨ b.addr + 8 ≤ i) →
        setPtr h.mem b.addr ((addrs suf).headD base) i = h.mem i := fun i hi => setPtr_of_notMem hi
    refine ⟨c, _, pre ++ b :: suf, rfl, heq, ⟨Segment.append ?_ (Segment.cons ?_ ?_ ?_), ?_, ?_, ?_⟩,
      by simp, ?_, taken_whole hf (by omega), fun i hi => hframe i ?_⟩
    · refine hpre.congr fun d hd i h₁ h₂ => hframe i ?_
      have := hprec d hd
      have := d.header_le_stop
      unfold HEADER at this
      omega
    · rw [size_setPtr_self]
      exact hf.sizes b (by simp)
    · exact ptr_setPtr_self hlt
    · refine Segment.congr (m := h.mem) (Segment.right (l := pre ++ [b, c]) ?_) fun d hd i h₁ h₂ =>
        hframe i ?_
      · simpa using hf.toSegment
      · have := hsufc d hd
        unfold HEADER at *
        omega
    · obtain ⟨L, hL⟩ := hf.head
      cases pre with
      | nil => exact ⟨suf, by rw [(List.cons.inj hL).1]; rfl⟩
      | cons d pre => exact ⟨pre ++ b :: suf, by rw [(List.cons.inj hL).1]; rfl⟩
    · refine hf.sorted.sublist (Sublist.append_left ?_ _)
      exact Sublist.cons_cons _ (sublist_cons_self _ _)
    · intro d hd
      refine hf.bound d ?_
      simp at hd ⊢
      tauto
    · rw [size_setPtr_of_disjoint (Or.inr (hbh.trans hbc₁)), hcsize, heq]
    · have := hi b (by simp)
      unfold Chunk.Has HEADER at *
      omega
  · rw [if_neg heq]
    have hsub : c.units - n < 2 ^ 32 := by
      have := size_lt h.mem c.addr
      omega
    have hm₁ : size (setSize h.mem c.addr (c.units - n)) c.addr = c.units - n := by
      rw [size_setSize_self, Nat.mod_eq_of_lt hsub]
    have hplus : plus c.addr (c.units - n) = c.addr + HEADER * (c.units - n) := by
      rw [plus, Nat.mod_eq_of_lt]
      unfold HEADER at *
      omega
    dsimp only
    rw [hm₁, hplus]
    have hframe : ∀ i, (i < c.addr ∨ c.stop ≤ i) → setSize (setSize h.mem c.addr (c.units - n))
        (c.addr + HEADER * (c.units - n)) n i = h.mem i := fun i hi => by
      unfold HEADER at *
      rw [setSize_of_notMem (by omega), setSize_of_notMem (by omega)]
    have haway : c.addr + HEADER ≤ c.addr + HEADER * (c.units - n) := by
      unfold HEADER
      omega
    refine ⟨⟨c.addr + HEADER * (c.units - n), n⟩, _, pre ++ b :: ⟨c.addr, c.units - n⟩ :: suf, rfl,
      rfl, ⟨Segment.append ?_ (Segment.cons ?_ ?_ (Segment.cons ?_ ?_ ?_)), ?_, ?_, ?_⟩, by simp, ?_,
      taken_tail hf hn (by omega), fun i hi => hframe i ?_⟩
    · refine hpre.congr fun d hd i h₁ h₂ => hframe i ?_
      have := hprec d hd
      have := d.header_le_stop
      unfold HEADER at *
      omega
    · rw [← hf.sizes b (by simp)]
      refine size_congr fun i h₁ h₂ => hframe i (Or.inl ?_)
      unfold HEADER at *
      omega
    · have hb : ptr h.mem b.addr = c.addr := by rw [hf.ptr_eq]; rfl
      refine (ptr_congr fun i h₁ h₂ => hframe i (Or.inl ?_)).trans hb
      unfold HEADER at *
      omega
    · rw [size_setSize_of_disjoint (Or.inl haway), hm₁]
    · rw [ptr_setSize_of_disjoint (Or.inl haway), ptr_setSize_self, hcnext]
    · refine Segment.congr (m := h.mem) (Segment.right (l := pre ++ [b, c]) ?_) fun d hd i h₁ h₂ =>
        hframe i (Or.inr ((hsufc d hd).trans h₁))
      simpa using hf.toSegment
    · obtain ⟨L, hL⟩ := hf.head
      cases pre with
      | nil | cons => exact ⟨_, by rw [(List.cons.inj hL).1]; rfl⟩
    · have hc' : ∀ d ∈ suf, (⟨c.addr, c.units - n⟩ : Chunk).Before d := fun d hd => by
        have h₁ := hsufc d hd
        refine ⟨?_, ?_⟩ <;> unfold Chunk.stop HEADER at * <;> dsimp only at * <;> omega
      refine pairwise_append.mpr ⟨hs.1, pairwise_cons.mpr ⟨fun d hd => ?_,
        pairwise_cons.mpr ⟨hc', (pairwise_cons.mp hcs).2⟩⟩, fun d hd e he => ?_⟩
      · rcases mem_cons.mp hd with rfl | hd
        · exact hbc
        · exact (pairwise_cons.mp hs.2.1).1 d (by simp [hd])
      · simp only [mem_cons] at he
        rcases he with rfl | rfl | he
        · exact hs.2.2 d hd e (by simp)
        · exact hs.2.2 d hd c (by simp)
        · exact hs.2.2 d hd e (by simp [he])
    · intro d hd
      simp only [mem_append, mem_cons] at hd
      rcases hd with hd | rfl | rfl | hd
      · exact hf.bound d (by simp [hd])
      · exact hf.bound d (by simp)
      · unfold Chunk.stop HEADER at *
        dsimp only at *
        omega
      · exact hf.bound d (by simp [hd])
    · rw [size_setSize_self, Nat.mod_eq_of_lt hnlt]
    · have := hi c (by simp)
      unfold Chunk.Has at this
      omega

end Umalloc
end Xv6
