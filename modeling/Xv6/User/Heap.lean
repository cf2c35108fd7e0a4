import Xv6.User.FreeList

/-!
# The heap of a program

What holds of the allocator over a whole run of a program: the free chunks, the chunks the program
has been given and not yet freed, and the memory obtained from `sbrk`.  `HeapInv` is the invariant,
`free_inv` and `malloc_inv` are its steps.

`sbrk` is arbitrary up to what `Fresh` says of it: memory it grants lies above the static header and
above all memory it granted before.
-/

namespace Xv6

open List
namespace Umalloc

variable {sbrk : List Call → ℤ → ℕ} {base n fuel : ℕ} {C live : List Chunk} {h : Heap}

/-! ## The search of `malloc` -/

/-- The search passes chunks that are too small. -/
lemma mallocLoop_skip (xs : List Chunk) {q prevp : ℕ} (hxs : Segment h.mem xs q)
    (hsub : ∀ c ∈ xs, c ∈ C) (hsmall : ∀ c ∈ xs, c.units < n) (hne : ∀ c ∈ xs, c.addr ≠ h.freep)
    (hprev : prevp ∈ addrs C) (hptr : ptr h.mem prevp = (addrs xs).headD q) :
    ∃ prevp' ∈ addrs C, ptr h.mem prevp' = q ∧ ∀ fuel,
      mallocLoop sbrk n (xs.length + fuel) prevp ((addrs xs).headD q) h =
        mallocLoop sbrk n fuel prevp' q h := by
  induction xs generalizing prevp with
  | nil => exact ⟨prevp, hprev, hptr, fun fuel => by simp⟩
  | cons x xs ih =>
    have hx : size h.mem x.addr = x.units := hxs.sizes x mem_cons_self
    have hnext : ptr h.mem x.addr = (addrs xs).headD q := hxs.links.1
    obtain ⟨prevp', hmem, hq, hgo⟩ := ih (Segment.right (l := [x]) hxs)
      (fun c hc => hsub c (by simp [hc])) (fun c hc => hsmall c (by simp [hc]))
      (fun c hc => hne c (by simp [hc])) (mem_map_of_mem (hsub x mem_cons_self)) hnext
    refine ⟨prevp', hmem, hq, fun fuel => ?_⟩
    have h₁ := hsmall x mem_cons_self
    have h₂ := hne x mem_cons_self
    rw [show (x :: xs).length + fuel = xs.length + fuel + 1 by simp; omega]
    simp only [addrs, map_cons, headD_cons, mallocLoop]
    rw [hx, if_neg (by omega), if_neg h₂, hnext, hgo]

/-- The free list read from the chunk after `freep` on; `freep` comes last. -/
lemma FreeList.enter (hf : FreeList h.mem base C) (hfreep : h.freep ∈ addrs C) :
    ∃ f xs, f.addr = h.freep ∧ (∀ c, c ∈ C ↔ c ∈ xs ++ [f]) ∧ (addrs (xs ++ [f])).Nodup ∧
      C.length = xs.length + 1 ∧
      Segment h.mem (xs ++ [f]) (ptr h.mem h.freep) ∧
      ptr h.mem h.freep = (addrs (xs ++ [f])).headD base := by
  obtain ⟨f, hfC, hfa⟩ := mem_map.mp hfreep
  obtain ⟨ys, zs, rfl⟩ := append_of_mem hfC
  have hmem : ∀ c, c ∈ ys ++ f :: zs ↔ c ∈ zs ++ ys ++ [f] := fun c => by
    simp only [mem_append, mem_cons, not_mem_nil, or_false]
    tauto
  have hperm : (ys ++ f :: zs).Perm (zs ++ ys ++ [f]) := by
    have h₁ : ys ++ f :: zs = (ys ++ [f]) ++ zs := by simp
    rw [h₁, append_assoc zs]
    exact perm_append_comm
  obtain ⟨L, hL⟩ := hf.head
  have hhead : (addrs (ys ++ [f]) ++ addrs zs).headD base = base := by
    rw [← map_append, append_assoc, singleton_append, hL]
    rfl
  have hlinks : Linked (ptr h.mem) (addrs (ys ++ [f]) ++ addrs zs)
      ((addrs (ys ++ [f]) ++ addrs zs).headD base) := by
    rw [hhead, ← map_append, append_assoc, singleton_append]
    exact hf.links
  have hrot : Linked (ptr h.mem) (addrs (zs ++ ys ++ [f]))
      ((addrs (zs ++ ys ++ [f])).headD base) := by
    rw [append_assoc, addrs, map_append]
    exact hlinks.rotate
  -- the pointer of the last chunk leads to the first one
  have hlast : ptr h.mem h.freep = (addrs (zs ++ ys ++ [f])).headD base := by
    have hsplit : addrs (zs ++ ys ++ [f]) = addrs (zs ++ ys) ++ [f.addr] := map_append
    rw [hsplit] at hrot ⊢
    rw [← hfa]
    exact (linked_append.mp hrot).2.1
  refine ⟨f, zs ++ ys, hfa, hmem, (hperm.map Chunk.addr).nodup_iff.mp hf.nodup, ?_,
    ⟨by rw [hlast]; exact hrot, fun c hc => hf.sizes c ((hmem c).mpr hc)⟩, hlast⟩
  simp
  omega

/-- If some chunk is large enough, the search ends at one, with its predecessor. -/
lemma mallocLoop_found (sbrk : List Call → ℤ → ℕ) (hf : FreeList h.mem base C)
    (hfreep : h.freep ∈ addrs C) (hn : 1 ≤ n)
    (hex : ∃ c ∈ C, n ≤ c.units) :
    ∃ pre b c suf, C = pre ++ b :: c :: suf ∧ n ≤ c.units ∧ ∀ fuel, C.length ≤ fuel →
      mallocLoop sbrk n fuel h.freep (ptr h.mem h.freep) h = some (takeUnits n b.addr c.addr h) := by
  obtain ⟨f, rs, hfa, hmem, hnd, hlen, hseg, hptr⟩ := hf.enter hfreep
  -- the first large chunk after `freep`
  have hfind : ∃ c xs ws, n ≤ c.units ∧ rs ++ [f] = xs ++ c :: ws ∧ ∀ a ∈ xs, a.units < n := by
    obtain ⟨c, hc, hcn⟩ := hex
    have hsome : ((rs ++ [f]).find? fun a => decide (n ≤ a.units)).isSome := by
      rw [List.find?_isSome]
      exact ⟨c, (hmem c).mp hc, by simpa using hcn⟩
    obtain ⟨d, hd⟩ := Option.isSome_iff_exists.mp hsome
    obtain ⟨hdn, xs, ws, hsplit, hxs⟩ := List.find?_eq_some_iff_append.mp hd
    exact ⟨d, xs, ws, by simpa using hdn, hsplit, fun a ha => by simpa using hxs a ha⟩
  obtain ⟨c, xs, ws, hcn, hsplit, hxs⟩ := hfind
  have hcC : c ∈ C := (hmem c).mpr (by simp [hsplit])
  have hne : ∀ a ∈ xs, a.addr ≠ h.freep := fun a ha haf => by
    rw [hsplit, addrs, map_append, nodup_append] at hnd
    have hfw : f ∈ c :: ws := by
      have hl := congrArg getLast? hsplit
      rw [List.getLast?_concat, List.getLast?_append_of_ne_nil _ (by simp)] at hl
      exact mem_of_getLast? hl.symm
    exact hnd.2.2 _ (mem_map_of_mem ha) _ (mem_map_of_mem hfw) (haf.trans hfa.symm)
  rw [hsplit] at hseg hptr
  have hxsSeg : Segment h.mem xs c.addr := Segment.left hseg
  have hptr' : ptr h.mem h.freep = (addrs xs).headD c.addr := by
    rw [hptr, addrs, map_append, headD_append]
    rfl
  obtain ⟨prevp, hprev, hprevc, hgo⟩ := mallocLoop_skip (n := n) xs hxsSeg
    (fun a ha => (hmem a).mpr (by simp [hsplit, ha])) hxs hne hfreep hptr'
  -- the predecessor, read off the list in the order of addresses
  have hpred : ∃ pre b suf, C = pre ++ b :: c :: suf ∧ prevp = b.addr := by
    obtain ⟨L, hL⟩ := hf.head
    obtain ⟨as, bs, has⟩ := append_of_mem hcC
    obtain ⟨pre, b, rfl⟩ : ∃ pre b, as = pre ++ [b] := by
      rcases as.eq_nil_or_concat with rfl | ⟨pre, b, rfl⟩
      · rw [hL] at has
        have := (List.cons.inj has).1
        subst this
        dsimp only at hcn
        omega
      · exact ⟨pre, b, by simp⟩
    have hC : C = pre ++ b :: c :: bs := by simpa using has
    refine ⟨pre, b, bs, hC, ?_⟩
    have hmap : addrs C = addrs pre ++ b.addr :: c.addr :: addrs bs := by simp [hC, addrs]
    have hbase : (addrs pre ++ [b.addr]).headD base = base := by
      cases pre with
      | nil | cons =>
        rw [hL] at hC
        exact congrArg Chunk.addr (List.cons.inj hC).1.symm
    refine Linked.pred_unique (addrs pre) (addrs bs) (e := base) ?_ ?_ ?_ hprevc
    · rw [hbase, ← hmap]
      exact hf.links
    · rw [← hmap]
      exact hf.nodup
    · rwa [← hmap]
  obtain ⟨pre, b, suf, hC, rfl⟩ := hpred
  refine ⟨pre, b, c, suf, hC, hcn, fun fuel hfuel => ?_⟩
  have hxlen : xs.length + 1 ≤ fuel := by
    have hl := congrArg List.length hsplit
    simp only [length_append, length_cons, length_nil] at hl
    omega
  rw [hptr', show fuel = xs.length + (fuel - xs.length - 1 + 1) by omega, hgo]
  simp only [mallocLoop]
  rw [hf.sizes c hcC, if_pos hcn]

/-- If every chunk is too small, the search comes to `freep` and asks for more memory. -/
lemma mallocLoop_none (sbrk : List Call → ℤ → ℕ) (hf : FreeList h.mem base C)
    (hfreep : h.freep ∈ addrs C)
    (hsmall : ∀ c ∈ C, c.units < n) (fuel : ℕ) :
    mallocLoop sbrk n (C.length + fuel) h.freep (ptr h.mem h.freep) h =
      match morecore sbrk fuel n h with
      | none => none
      | some (p, h') =>
        if p = 0 then some (0, h') else mallocLoop sbrk n fuel p (ptr h'.mem p) h' := by
  obtain ⟨f, xs, hfa, hmem, hnd, hlen, hseg, hptr⟩ := hf.enter hfreep
  have hne : ∀ a ∈ xs, a.addr ≠ h.freep := fun a ha haf => by
    rw [addrs, map_append, nodup_append] at hnd
    exact hnd.2.2 _ (mem_map_of_mem ha) f.addr (by simp) (haf.trans hfa.symm)
  have hxsSeg : Segment h.mem xs f.addr := Segment.left hseg
  have hptr' : ptr h.mem h.freep = (addrs xs).headD f.addr := by
    rw [hptr, addrs, map_append, headD_append]
    rfl
  obtain ⟨prevp, -, -, hgo⟩ := mallocLoop_skip (n := n) xs hxsSeg
    (fun a ha => (hmem a).mpr (by simp [ha])) (fun a ha => hsmall a ((hmem a).mpr (by simp [ha])))
    hne hfreep hptr'
  have hfC : f ∈ C := (hmem f).mpr (by simp)
  have hfsmall := hsmall f hfC
  rw [hlen, Nat.add_assoc, hptr', hgo, Nat.add_comm 1 fuel]
  simp only [mallocLoop]
  rw [hf.sizes f hfC, if_neg (by omega)]
  exact if_pos hfa

/-! ## Memory from `sbrk` -/

/-- The call granted the byte `i`. -/
def Call.Has (c : Call) (i : ℕ) : Prop :=
  c.answer ≠ SBRK_ERROR ∧ c.answer ≤ i ∧ (i : ℤ) < c.answer + c.amount

/-- An answer of `sbrk` after the given calls: none, or memory above the static header and above all
memory granted before. -/
def FreshAnswer (base : ℕ) (calls : List Call) (n : ℤ) (p : ℕ) : Prop :=
  p = SBRK_ERROR ∨ (base + HEADER ≤ p ∧ (p : ℤ) + n < 2 ^ 64 ∧
    ∀ c ∈ calls, c.answer ≠ SBRK_ERROR → c.answer + c.amount ≤ (p : ℤ))

/-- The calls were answered by `sbrk`, each in the light of those before it, and asked for memory. -/
def Honest (sbrk : List Call → ℤ → ℕ) : List Call → Prop
  | [] => True
  | c :: cs => (0 < c.amount ∧ c.answer = sbrk cs c.amount) ∧ Honest sbrk cs

/-- Memory that `sbrk` grants lies above the static header and above all memory granted before. -/
def Fresh (sbrk : List Call → ℤ → ℕ) (base : ℕ) : Prop :=
  ∀ calls, Honest sbrk calls → ∀ a, 0 < a → FreshAnswer base calls a (sbrk calls a)

/-- The number of units granted. -/
def obtained : List Call → ℕ
  | [] => 0
  | c :: cs => (if c.answer = SBRK_ERROR then 0 else c.amount.toNat / HEADER) + obtained cs

/-- The call of `sbrk` that a request of `n` units leads to. -/
def ask (sbrk : List Call → ℤ → ℕ) (n : ℕ) (calls : List Call) : Call :=
  ⟨(coreUnits n * HEADER : ℕ), sbrk calls (coreUnits n * HEADER : ℕ)⟩

lemma toInt_of_lt (hn : n < 2 ^ 31) : toInt n = n := by
  rw [toInt, BitVec.toInt_ofNat', Int.bmod_eq_of_le] <;> omega

/-! ## The invariant -/

/-- The allocator's state is sound: `C` is the free list, `live` are the chunks handed out. -/
structure HeapInv (base : ℕ) (h : Heap) (live C : List Chunk) : Prop where
  free : FreeList h.mem base C
  freep : h.freep ∈ addrs C
  size : ∀ x ∈ live, size h.mem x.addr = x.units
  pos : ∀ x ∈ live, 1 ≤ x.units
  -- no two chunks overlap
  apart : ∀ x ∈ live, ∀ c ∈ C, x.Disjoint c
  pairwise : live.Pairwise Chunk.Disjoint
  -- every chunk but the static header lies in memory that `sbrk` granted
  granted : ∀ x ∈ live ++ C, x.addr ≠ base → ∀ i, x.Has i → ∃ c ∈ h.calls, c.Has i
  calls : ∀ c ∈ h.calls, c.answer ≠ SBRK_ERROR →
    base + HEADER ≤ c.answer ∧ (c.answer : ℤ) + c.amount < 2 ^ 64
  units : ∃ lost, units C + units live + 2 ^ 32 * lost = obtained h.calls

namespace HeapInv

variable {x : Chunk}

section

variable (h₀ : HeapInv base h live C)
include h₀

lemma perm {live' : List Chunk} (hp : live.Perm live') : HeapInv base h live' C where
  free := h₀.free
  freep := h₀.freep
  size := fun x hx => h₀.size x (hp.mem_iff.mpr hx)
  pos := fun x hx => h₀.pos x (hp.mem_iff.mpr hx)
  apart := fun x hx => h₀.apart x (hp.mem_iff.mpr hx)
  pairwise := h₀.pairwise.perm hp fun h => h.symm
  granted := fun x hx => h₀.granted x ((hp.append_right C).mem_iff.mpr hx)
  calls := h₀.calls
  units := by
    obtain ⟨lost, hl⟩ := h₀.units
    have heq : Umalloc.units live = Umalloc.units live' := (hp.map Chunk.units).sum_eq
    exact ⟨lost, by rw [← heq, hl]⟩

/-- A chunk of the free list at the place of the static header is the static header. -/
lemma eq_base (hx : x ∈ C) (hxb : x.addr = base) : x = ⟨base, 0⟩ :=
  inj_on_of_nodup_map h₀.free.nodup hx h₀.free.base_mem hxb

lemma granted_of_live (hx : x ∈ live) : ∀ i, x.Has i → ∃ c ∈ h.calls, c.Has i := by
  refine h₀.granted x (by simp [hx]) fun hxb => ?_
  have hd := h₀.apart x hx _ h₀.free.base_mem
  exact Chunk.disjoint_iff.mp hd x.addr x.has_addr (hxb ▸ (Chunk.has_addr ⟨base, 0⟩))

/-- Where a chunk that was granted may lie. -/
lemma bounds_of_granted
    (hx : ∀ i, x.Has i → ∃ c ∈ h.calls, c.Has i) : base + HEADER ≤ x.addr ∧ x.stop < 2 ^ 64 := by
  have hlast : x.Has (x.stop - 1) := by
    have := x.header_le_stop
    unfold HEADER at this
    exact ⟨by omega, by omega⟩
  obtain ⟨c, hc, hc₁, hc₂, hc₃⟩ := hx _ x.has_addr
  obtain ⟨d, hd, hd₁, hd₂, hd₃⟩ := hx _ hlast
  have h₁ := h₀.calls c hc hc₁
  have h₂ := h₀.calls d hd hd₁
  have h₃ := x.header_le_stop
  unfold HEADER at *
  omega

end

variable {y c : Chunk} {i k p : ℕ} {m m' : Bytes}

/-- A byte of another chunk is not touched by what changes only `x` and the free chunks. -/
lemma not_has (h₀ : HeapInv base h (x :: live) C) (hy : y ∈ live)
    (hi : y.Has i) : ∀ c ∈ x :: C, ¬c.Has i := by
  intro c hc hci
  rcases mem_cons.mp hc with rfl | hc
  · exact Chunk.disjoint_iff.mp ((pairwise_cons.mp h₀.pairwise).1 y hy) i hci hi
  · exact Chunk.disjoint_iff.mp (h₀.apart y (by simp [hy]) c hc) i hi hci

/-- A chunk whose bytes are those of free chunks is apart from all live ones. -/
lemma apart_of_has {l : List Chunk} (hl : ∀ d ∈ l, y.Disjoint d)
    (hc : ∀ i, c.Has i → ∃ d ∈ l, d.Has i) : y.Disjoint c := by
  refine Chunk.disjoint_iff.mpr fun i hy hci => ?_
  obtain ⟨d, hd, hdi⟩ := hc i hci
  exact Chunk.disjoint_iff.mp (hl d hd) i hy hdi

/-- The size of a chunk depends on its own bytes only. -/
lemma size_of_frame (hy : Umalloc.size m y.addr = y.units)
    (hm : ∀ i, y.Has i → m' i = m i) : Umalloc.size m' y.addr = y.units := by
  rw [← hy]
  refine size_congr fun i h₁ h₂ => hm i ?_
  have := y.header_le_stop
  unfold HEADER at this
  exact ⟨by omega, by omega⟩

/-- The invariant depends on the headers of the chunks only. -/
lemma congr (h₀ : HeapInv base h live C) (hm : ∀ c ∈ live ++ C, ∀ i, c.addr ≤ i →
    i < c.addr + HEADER → m' i = h.mem i) : HeapInv base { h with mem := m' } live C where
  free := h₀.free.congr fun c hc i h₁ h₂ => hm c (by simp [hc]) i h₁ (by unfold HEADER; omega)
  freep := h₀.freep
  size := fun x hx => by
    rw [← h₀.size x hx]
    exact size_congr fun i h₁ h₂ => hm x (by simp [hx]) i (by omega) (by unfold HEADER; omega)
  pos := h₀.pos
  apart := h₀.apart
  pairwise := h₀.pairwise
  granted := h₀.granted
  calls := h₀.calls
  units := h₀.units

/-- `free` of a live chunk. -/
lemma free_inv (h₀ : HeapInv base h (x :: live) C) (hbase : 0 < base) :
    ∃ m' p C', (∀ fuel, C.length + 1 ≤ fuel →
        Umalloc.free fuel (x.addr + HEADER) h = some { h with mem := m', freep := p }) ∧
      HeapInv base { h with mem := m', freep := p } live C' ∧ Freed C x C' ∧
      ∀ y ∈ live, ∀ i, y.Has i → m' i = h.mem i := by
  have hxg := h₀.granted_of_live (x := x) (by simp)
  obtain ⟨hxb, hxs⟩ := h₀.bounds_of_granted hxg
  obtain ⟨m', p, C', hfree, hF, hp, hfreed, hframe⟩ := free_spec h₀.free hbase h₀.freep
    (by unfold HEADER at hxb; omega) (h₀.size x (by simp)) hxs.le (h₀.apart x (by simp))
  have hkeep : ∀ y ∈ live, ∀ i, y.Has i → m' i = h.mem i := fun y hy i hi =>
    hframe i (h₀.not_has hy hi)
  have hdisj : ∀ y ∈ live, ∀ d ∈ x :: C, y.Disjoint d := fun y hy d hd => by
    rcases mem_cons.mp hd with rfl | hd
    · exact ((pairwise_cons.mp h₀.pairwise).1 y hy).symm
    · exact h₀.apart y (by simp [hy]) d hd
  refine ⟨m', p, C', hfree, ⟨hF, hp, ?_, fun y hy => h₀.pos y (by simp [hy]), ?_,
    (pairwise_cons.mp h₀.pairwise).2, ?_, h₀.calls, ?_⟩, hfreed, hkeep⟩
  · exact fun y hy => size_of_frame (h₀.size y (by simp [hy])) (hkeep y hy)
  · exact fun y hy c hc => apart_of_has (hdisj y hy) (hfreed.has c hc)
  · intro y hy hyb i hi
    rcases mem_append.mp hy with hy | hy
    · exact h₀.granted y (by simp [hy]) hyb i hi
    · obtain ⟨d, hd, hdi⟩ := hfreed.has y hy i hi
      rcases mem_cons.mp hd with rfl | hd
      · exact hxg i hdi
      · refine h₀.granted d (by simp [hd]) (fun hdb => ?_) i hdi
        -- only the static header has the bytes of the static header
        rw [h₀.eq_base hd hdb] at hdi
        exact Chunk.disjoint_iff.mp (hF.base_disjoint hy hyb) i hdi hi
  · obtain ⟨k₁, h₁⟩ := h₀.units
    obtain ⟨k₂, h₂⟩ := hfreed.units
    refine ⟨k₁ + k₂, ?_⟩
    rw [units_cons] at h₁
    dsimp only
    omega

/-- Writing the size of a chunk does not change another chunk. -/
lemma setSize_of_has (hd : x.Disjoint y) (hi : y.Has i) :
    setSize m x.addr k i = m i := by
  have hn : ¬x.Has i := fun hx => Chunk.disjoint_iff.mp hd i hx hi
  have hh := x.header_le_stop
  unfold Chunk.Has HEADER at *
  exact setSize_of_notMem (by omega)

section

variable (h₀ : HeapInv base h live C)
include h₀

/-- Memory that `sbrk` has just granted is apart from all chunks. -/
lemma fresh_disjoint (hpb : base + HEADER ≤ p)
    (hp : ∀ c ∈ h.calls, c.answer ≠ SBRK_ERROR → c.answer + c.amount ≤ (p : ℤ)) :
    ∀ y ∈ live ++ C, (⟨p, k⟩ : Chunk).Disjoint y := by
  intro y hy
  refine Chunk.disjoint_iff.mpr fun i hi hyi => ?_
  have hpi : p ≤ i := hi.1
  by_cases hyb : y.addr = base
  · have hyC : y ∈ C := by
      refine (mem_append.mp hy).resolve_left fun hl => ?_
      have hd := h₀.apart y hl _ h₀.free.base_mem
      exact Chunk.disjoint_iff.mp hd y.addr y.has_addr (hyb ▸ (Chunk.has_addr ⟨base, 0⟩))
    have h₂ := hyi.2
    rw [h₀.eq_base hyC hyb, Chunk.stop] at h₂
    dsimp only at h₂
    unfold HEADER at *
    omega
  · obtain ⟨c, hc, hc₁, hc₂, hc₃⟩ := h₀.granted y hy hyb i hyi
    have := hp c hc hc₁
    omega

/-- The heap after `sbrk` has granted memory: a chunk that nobody has yet. -/
lemma grant (hk : 1 ≤ k) (hklt : k < 2 ^ 27)
    (hperr : p ≠ SBRK_ERROR) (hpb : base + HEADER ≤ p) (hpk : (p : ℤ) + (k * HEADER : ℕ) < 2 ^ 64)
    (hp : ∀ c ∈ h.calls, c.answer ≠ SBRK_ERROR → c.answer + c.amount ≤ (p : ℤ)) :
    HeapInv base { h with mem := setSize h.mem p k, calls := ⟨(k * HEADER : ℕ), p⟩ :: h.calls }
      (⟨p, k⟩ :: live) C := by
  have hdisj := h₀.fresh_disjoint (k := k) hpb hp
  have hxs : (⟨p, k⟩ : Chunk).stop = p + HEADER * k := Chunk.stop_eq hk
  have hkeep : ∀ y ∈ live ++ C, ∀ i, y.Has i → setSize h.mem p k i = h.mem i := fun y hy _ hi =>
    setSize_of_has (hdisj y hy) hi
  refine ⟨h₀.free.congr fun c hc i h₁ h₂ => hkeep c (by simp [hc]) i ?_, h₀.freep, ?_, ?_, ?_,
    pairwise_cons.mpr ⟨fun y hy => hdisj y (by simp [hy]), h₀.pairwise⟩, ?_, ?_, ?_⟩
  · have := c.header_le_stop
    unfold HEADER at this
    exact ⟨h₁, by omega⟩
  · intro y hy
    rcases mem_cons.mp hy with rfl | hy
    · rw [size_setSize_self, Nat.mod_eq_of_lt (by omega)]
    · exact size_of_frame (h₀.size y hy) (hkeep y (by simp [hy]))
  · intro y hy
    rcases mem_cons.mp hy with rfl | hy
    · exact hk
    · exact h₀.pos y hy
  · intro y hy c hc
    rcases mem_cons.mp hy with rfl | hy
    · exact hdisj c (by simp [hc])
    · exact h₀.apart y hy c hc
  · intro y hy hyb i hi
    rcases mem_cons.mp hy with rfl | hy
    · refine ⟨_, mem_cons_self, hperr, hi.1, ?_⟩
      have h₂ := hi.2
      rw [hxs] at h₂
      dsimp only
      push_cast
      unfold HEADER at *
      omega
    · obtain ⟨c, hc, hci⟩ := h₀.granted y hy hyb i hi
      exact ⟨c, mem_cons_of_mem _ hc, hci⟩
  · intro c hc hce
    rcases mem_cons.mp hc with rfl | hc
    · exact ⟨hpb, hpk⟩
    · exact h₀.calls c hc hce
  · obtain ⟨lost, hl⟩ := h₀.units
    refine ⟨lost, ?_⟩
    have hdiv : k * HEADER / HEADER = k := Nat.mul_div_cancel _ (by decide)
    rw [units_cons, obtained, if_neg hperr, Int.toNat_natCast, hdiv]
    dsimp only
    omega

/-- A call of `sbrk` that was refused. -/
lemma refused {c : Call} (hc : c.answer = SBRK_ERROR) :
    HeapInv base { h with calls := c :: h.calls } live C where
  free := h₀.free
  freep := h₀.freep
  size := h₀.size
  pos := h₀.pos
  apart := h₀.apart
  pairwise := h₀.pairwise
  granted := fun x hx hxb i hi => by
    obtain ⟨d, hd, hdi⟩ := h₀.granted x hx hxb i hi
    exact ⟨d, mem_cons_of_mem _ hd, hdi⟩
  calls := fun d hd hde => by
    rcases mem_cons.mp hd with rfl | hd
    · exact absurd hc hde
    · exact h₀.calls d hd hde
  units := by
    obtain ⟨lost, hl⟩ := h₀.units
    exact ⟨lost, by rw [obtained, if_pos hc, Nat.zero_add]; exact hl⟩

lemma freep_ne_zero (hbase : 0 < base) : h.freep ≠ 0 := by
  obtain ⟨c, hc, hca⟩ := mem_map.mp h₀.freep
  have := h₀.free.base_le hc
  omega

/-- `morecore` for a request that fits an `int`. -/
lemma morecore_inv (hbase : 0 < base) (hn : n < 2 ^ 27)
    (hsbrk : ∀ a, 0 < a → FreshAnswer base h.calls a (sbrk h.calls a)) :
    ((ask sbrk n h.calls).answer = SBRK_ERROR ∧ ∀ fuel, morecore sbrk fuel n h =
      some (0, { h with calls := ask sbrk n h.calls :: h.calls })) ∨
    ∃ h' C', (∀ fuel, C.length + 1 ≤ fuel → morecore sbrk fuel n h = some (h'.freep, h')) ∧
      HeapInv base h' live C' ∧ ((∀ c ∈ C, c.units < n) → ∃ c ∈ C', n ≤ c.units) ∧
      h'.calls = ask sbrk n h.calls :: h.calls ∧
      ∀ y ∈ live, ∀ i, y.Has i → h'.mem i = h.mem i := by
  have hk : 1 ≤ coreUnits n ∧ n ≤ coreUnits n ∧ coreUnits n < 2 ^ 27 := by
    unfold coreUnits
    split <;> omega
  have hint : toInt (coreUnits n * HEADER) = (coreUnits n * HEADER : ℕ) :=
    toInt_of_lt (by unfold HEADER; omega)
  simp only [morecore, hint, ask]
  have hpos : (0 : ℤ) < (coreUnits n * HEADER : ℕ) := by
    unfold HEADER
    omega
  generalize hp : sbrk h.calls (coreUnits n * HEADER : ℕ) = p
  by_cases herr : p = SBRK_ERROR
  · exact Or.inl ⟨herr, fun fuel => by rw [if_pos herr]⟩
  right
  obtain ⟨hpb, hpk, hpc⟩ := (hp ▸ hsbrk _ hpos).resolve_left herr
  have hg := h₀.grant hk.1 hk.2.2 herr hpb hpk hpc
  obtain ⟨m', q, C', hfree, hinv, hfreed, hkeep⟩ := hg.free_inv hbase
  have hplus : plus p 1 = p + HEADER := by
    rw [plus, Nat.mod_eq_of_lt] <;> unfold HEADER at * <;> push_cast at hpk <;> omega
  refine ⟨_, C', fun fuel hfuel => ?_, hinv, fun hsmall => ?_, rfl, fun y hy i hi => ?_⟩
  · rw [if_neg herr, hplus, hfree fuel hfuel]
    rfl
  · obtain ⟨c, hc, hcn⟩ := hfreed.large (by dsimp only; omega) fun c hc => by
      have := hsmall c hc
      omega
    exact ⟨c, hc, hk.2.1.trans hcn⟩
  · exact (hkeep y hy i hi).trans (setSize_of_has ((pairwise_cons.mp hg.pairwise).1 y hy) hi)

end

/-- Units taken from a free chunk become a live chunk. -/
lemma take_inv {pre suf : List Chunk} {b : Chunk} (h₀ : HeapInv base h live (pre ++ b :: c :: suf))
    (hn : 1 ≤ n) (hnlt : n < 2 ^ 32) (hc : n ≤ c.units) :
    ∃ x h' C', takeUnits n b.addr c.addr h = (x.addr + HEADER, h') ∧ x.units = n ∧
      HeapInv base h' (x :: live) C' ∧ h'.calls = h.calls ∧ ∀ y ∈ live, ∀ i, y.Has i → h'.mem i = h.mem i := by
  obtain ⟨x, m', C', htake, hxn, hF, hb, hxsize, htaken, hframe⟩ := takeUnits_spec h₀.free hn hnlt hc
  obtain ⟨p, hp, hp₀, hxp⟩ := htaken.inside
  have hpb : p.addr ≠ base := fun hpb => hp₀ (by rw [h₀.eq_base hp hpb])
  have hxg : ∀ i, x.Has i → ∃ c ∈ h.calls, c.Has i := fun i hi =>
    h₀.granted p (mem_append_right _ hp) hpb i (hxp i hi)
  have hkeep : ∀ y ∈ live, ∀ i, y.Has i → m' i = h.mem i := fun y hy i hi =>
    hframe i fun d hd hdi => Chunk.disjoint_iff.mp (h₀.apart y hy d hd) i hi hdi
  have hplus : plus x.addr 1 = x.addr + HEADER := by
    have h₁ := (h₀.bounds_of_granted hxg).2
    have h₂ := x.header_le_stop
    rw [plus, Nat.mod_eq_of_lt] <;> omega
  refine ⟨x, { h with mem := m', freep := b.addr }, C', by rw [htake, hplus], hxn,
    ⟨hF, hb, ?_, ?_, ?_, ?_, ?_, h₀.calls, ?_⟩, rfl, hkeep⟩
  · intro y hy
    rcases mem_cons.mp hy with rfl | hy
    · rw [hxn]
      exact hxsize
    · exact size_of_frame (h₀.size y hy) (hkeep y hy)
  · intro y hy
    rcases mem_cons.mp hy with rfl | hy
    · omega
    · exact h₀.pos y hy
  · intro y hy d hd
    rcases mem_cons.mp hy with rfl | hy
    · exact htaken.disjoint d hd
    · exact apart_of_has (h₀.apart y hy) (htaken.has d hd)
  · refine pairwise_cons.mpr ⟨fun y hy => ?_, h₀.pairwise⟩
    exact (apart_of_has (h₀.apart y hy) fun i hi => ⟨p, hp, hxp i hi⟩).symm
  · intro y hy hyb i hi
    rw [cons_append] at hy
    rcases mem_cons.mp hy with rfl | hy
    · exact hxg i hi
    rcases mem_append.mp hy with hy | hy
    · exact h₀.granted y (by simp [hy]) hyb i hi
    · obtain ⟨d, hd, hdi⟩ := htaken.has y hy i hi
      refine h₀.granted d (mem_append_right _ hd) (fun hdb => ?_) i hdi
      -- the static header is still in the list, and apart from `y`
      rw [h₀.eq_base hd hdb] at hdi
      exact Chunk.disjoint_iff.mp (hF.base_disjoint hy hyb) i hdi hi
  · obtain ⟨lost, hl⟩ := h₀.units
    have hu := htaken.units
    refine ⟨lost, ?_⟩
    rw [units_cons]
    dsimp only
    omega

/-- `malloc` for a request that fits an `int`, once the list exists. -/
lemma mallocLoop_inv (h₀ : HeapInv base h live C) (hbase : 0 < base) (hn : 1 ≤ n) (hnlt : n < 2 ^ 27)
    (hsbrk : ∀ a, 0 < a → FreshAnswer base h.calls a (sbrk h.calls a)) :
    ∃ r h' C' N, (∀ fuel, N ≤ fuel →
        mallocLoop sbrk n fuel h.freep (ptr h.mem h.freep) h = some (r, h')) ∧
      ((r = 0 ∧ HeapInv base h' live C' ∧ (ask sbrk n h.calls).answer = SBRK_ERROR) ∨
        ∃ x, r = x.addr + HEADER ∧ x.units = n ∧ HeapInv base h' (x :: live) C') ∧
      (h'.calls = h.calls ∨ h'.calls = ask sbrk n h.calls :: h.calls) ∧
      ∀ y ∈ live, ∀ i, y.Has i → h'.mem i = h.mem i := by
  by_cases hex : ∃ c ∈ C, n ≤ c.units
  · obtain ⟨pre, b, c, suf, rfl, hcn, hloop⟩ := 
      mallocLoop_found sbrk h₀.free h₀.freep hn hex
    obtain ⟨x, h', C', htake, hxn, hinv, hcalls, hkeep⟩ := h₀.take_inv hn (by omega) hcn
    refine ⟨_, h', C', (pre ++ b :: c :: suf).length, fun fuel hfuel => ?_,
      Or.inr ⟨x, rfl, hxn, hinv⟩, Or.inl hcalls, hkeep⟩
    rw [hloop fuel hfuel, htake]
  · have hsmall : ∀ c ∈ C, c.units < n := fun c hc => by
      by_contra hge
      exact hex ⟨c, hc, by omega⟩
    have hloop := mallocLoop_none sbrk h₀.free h₀.freep hsmall
    rcases h₀.morecore_inv hbase hnlt hsbrk with
      ⟨herr, hmore⟩ | ⟨h₁, C₁, hmore, hinv₁, hlarge, hcalls₁, hkeep₁⟩
    · refine ⟨0, _, C, C.length, fun fuel hfuel => ?_, Or.inl ⟨rfl, h₀.refused herr, herr⟩,
        Or.inr rfl, fun _ _ _ _ => rfl⟩
      rw [show fuel = C.length + (fuel - C.length) by omega, hloop, hmore]
      rfl
    · -- the second search finds the chunk that has been added
      obtain ⟨pre, b, c, suf, rfl, hcn, hloop₁⟩ :=
        mallocLoop_found sbrk hinv₁.free hinv₁.freep hn (hlarge hsmall)
      obtain ⟨x, h', C', htake, hxn, hinv, hcalls, hkeep⟩ := hinv₁.take_inv hn (by omega) hcn
      refine ⟨_, h', C', C.length + (C.length + 1 + (pre ++ b :: c :: suf).length),
        fun fuel hfuel => ?_, Or.inr ⟨x, rfl, hxn, hinv⟩, Or.inr (hcalls.trans hcalls₁),
        fun y hy i hi => ?_⟩
      · rw [show fuel = C.length + (fuel - C.length) by omega, hloop, hmore _ (by omega)]
        dsimp only
        rw [if_neg (hinv₁.freep_ne_zero hbase), hloop₁ _ (by omega), htake]
      · rw [hkeep y hy i hi, hkeep₁ y hy i hi]

/-- The list after the first call of `malloc` has set it up. -/
lemma init (hbase : 0 < base) (hb : base + HEADER ≤ 2 ^ 64) :
    HeapInv base (initHeap base { mem := m }) [] [⟨base, 0⟩] := by
  have hlt : base < 2 ^ 64 := by
    unfold HEADER at hb
    omega
  rw [initHeap, if_pos rfl]
  refine ⟨⟨Segment.cons ?_ ?_ ⟨linked_nil, by simp⟩, ⟨[], rfl⟩, pairwise_singleton _ _, ?_⟩,
    by simp, by simp, by simp, by simp, List.Pairwise.nil, ?_, by simp, ⟨0, by simp [obtained]⟩⟩
  · exact (size_setSize_self _ _ 0).trans (Nat.zero_mod _)
  · rw [ptr_setSize_self]
    exact ptr_setPtr_self hlt
  · intro c hc
    obtain rfl := mem_singleton.mp hc
    exact hb
  · intro x hx hxb
    obtain rfl : x = ⟨base, 0⟩ := by simpa using hx
    exact absurd rfl hxb

end HeapInv

end Umalloc
end Xv6
