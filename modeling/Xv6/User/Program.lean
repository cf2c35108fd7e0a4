import Xv6.User.Heap

/-!
# Programs that use the heap

A program calls `malloc` and `free` in any order and writes into the memory it was given.  The run
records what the program holds: the pointers returned to it that it has not freed, with the number
of bytes asked for.  A call takes effect when its loops end.
-/

namespace Xv6

open List
namespace Umalloc

/-- A pointer returned by `malloc`, with the number of bytes that were asked for. -/
structure Alloc where
  ap : ℕ
  nbytes : ℕ
deriving DecidableEq

/-- The block a pointer was handed out for, with its header. -/
def Alloc.chunk (a : Alloc) : Chunk := ⟨a.ap - HEADER, unitsOf a.nbytes⟩

instance : Std.Symm Chunk.Disjoint := ⟨fun _ _ h => h.symm⟩

instance : Std.Symm fun a b : Alloc => a.chunk.Disjoint b.chunk := ⟨fun _ _ h => h.symm⟩

/-- The byte `i` is one of those asked for. -/
def Alloc.Usable (a : Alloc) (i : ℕ) : Prop := a.ap ≤ i ∧ i < a.ap + a.nbytes

/-- A program and its heap. -/
structure Prog where
  heap : Heap
  live : List Alloc := []

inductive Op where
  | malloc (nbytes : ℕ)
  | free (ap : ℕ)
  | store (i : ℕ) (v : Byte)

/-- The loops of a call end, with the result `r`. -/
def Ends {α : Type} (f : ℕ → Option α) (r : α) : Prop := ∃ N, ∀ fuel, N ≤ fuel → f fuel = some r

/-- A request whose rounded size in bytes is an `int`. -/
def Small (nbytes : ℕ) : Prop := nbytes < 2 ^ 32 ∧ HEADER * unitsOf nbytes < 2 ^ 31

/-- The call of `malloc` that led from `h` to `h'` has asked the kernel for what it needs: the rounded
size in bytes is an `int`, or a free block was large enough. -/
def Served (nbytes : ℕ) (h h' : Heap) : Prop :=
  Small nbytes ∨ nbytes < 2 ^ 32 ∧ h'.calls = h.calls

/-- One operation of the program. -/
inductive Step (sbrk : List Call → ℤ → ℕ) (base : ℕ) : Prog → Op → Prog → Prop
  | null {h h' live nbytes} (hsmall : Small nbytes)
      (hend : Ends (fun fuel => malloc sbrk base fuel nbytes h) (0, h')) :
      Step sbrk base ⟨h, live⟩ (.malloc nbytes) ⟨h', live⟩
  | malloc {h h' live nbytes ap} (hserved : Served nbytes h h') (hap : ap ≠ 0)
      (hend : Ends (fun fuel => malloc sbrk base fuel nbytes h) (ap, h')) :
      Step sbrk base ⟨h, live⟩ (.malloc nbytes) ⟨h', ⟨ap, nbytes⟩ :: live⟩
  | free {h h' live a} (ha : a ∈ live) (hend : Ends (fun fuel => free fuel a.ap h) h') :
      Step sbrk base ⟨h, live⟩ (.free a.ap) ⟨h', live.erase a⟩
  | store {h live a i v} (ha : a ∈ live) (hi : a.Usable i) :
      Step sbrk base ⟨h, live⟩ (.store i v) ⟨{ h with mem := Function.update h.mem i v }, live⟩

/-- A run of a program. -/
inductive Runs (sbrk : List Call → ℤ → ℕ) (base : ℕ) : Prog → List Op → Prog → Prop
  | nil {s} : Runs sbrk base s [] s
  | cons {s t u op ops} (hstep : Step sbrk base s op t) (hrest : Runs sbrk base t ops u) :
      Runs sbrk base s (op :: ops) u

variable {sbrk : List Call → ℤ → ℕ} {base : ℕ} {s t : Prog} {op : Op} {ops : List Op}
  {C : List Chunk}

lemma Runs.append {u : Prog} {ops' : List Op} (h : Runs sbrk base s ops t)
    (h' : Runs sbrk base t ops' u) : Runs sbrk base s (ops ++ ops') u := by
  induction h with
  | nil => exact h'
  | cons hstep _ ih => exact .cons hstep (ih h')

/-- The loops of a call have one result. -/
lemma Ends.unique {α : Type} {f : ℕ → Option α} {r r' : α} (h : Ends f r) (h' : Ends f r') :
    r = r' := by
  obtain ⟨N, hN⟩ := h
  obtain ⟨N', hN'⟩ := h'
  have h₁ := hN (max N N') (le_max_left _ _)
  rw [hN' _ (le_max_right _ _)] at h₁
  exact (Option.some.inj h₁).symm

variable {nbytes i : ℕ} {a : Alloc} {calls : List Call}

/-- The units of a request hold its header and the bytes asked for. -/
lemma le_unitsOf (h : nbytes < 2 ^ 32) :
    1 ≤ unitsOf nbytes ∧ HEADER + nbytes ≤ HEADER * unitsOf nbytes := by
  unfold unitsOf HEADER
  omega

/-- The state of the allocator in a run: the list does not exist yet, or the invariant holds. -/
def ProgOk (sbrk : List Call → ℤ → ℕ) (base : ℕ) (s : Prog) (C : List Chunk) : Prop :=
  ((∀ a ∈ s.live, a.nbytes < 2 ^ 32 ∧ HEADER ≤ a.ap) ∧ Honest sbrk s.heap.calls) ∧
    ((s.live = [] ∧ C = [⟨base, 0⟩] ∧ ∃ m, s.heap = { mem := m }) ∨
      HeapInv base s.heap (s.live.map Alloc.chunk) C)

/-- The calls of `malloc` before and after the list exists. -/
lemma ProgOk.initHeap (h : ProgOk sbrk base s C) (hbase : 0 < base) (hb : base + HEADER ≤ 2 ^ 64) :
    HeapInv base (initHeap base s.heap) (s.live.map Alloc.chunk) C := by
  rcases h.2 with ⟨hl, rfl, m, hm⟩ | hinv
  · rw [hl, hm]
    exact HeapInv.init hbase hb
  · rwa [Umalloc.initHeap, if_neg (hinv.freep_ne_zero hbase)]

lemma initHeap_calls (base : ℕ) (h : Heap) : (initHeap base h).calls = h.calls := by
  unfold initHeap
  split <;> rfl

/-- A block is handed out. -/
lemma ProgOk.cons {h' : Heap} {C' : List Chunk} {x : Chunk} (h : ProgOk sbrk base s C)
    (hn : nbytes < 2 ^ 32) (hx : x.units = unitsOf nbytes) (hcalls : Honest sbrk h'.calls)
    (hinv : HeapInv base h' (x :: s.live.map Alloc.chunk) C') :
    ProgOk sbrk base ⟨h', ⟨x.addr + HEADER, nbytes⟩ :: s.live⟩ C' := by
  have hchunk : (⟨x.addr + HEADER, nbytes⟩ : Alloc).chunk = x := by
    rw [Alloc.chunk, ← hx, Nat.add_sub_cancel]
  refine ⟨⟨fun a ha => ?_, hcalls⟩, Or.inr ?_⟩
  · rcases mem_cons.mp ha with rfl | ha
    · exact ⟨hn, Nat.le_add_left ..⟩
    · exact h.1.1 a ha
  · rw [map_cons, hchunk]
    exact hinv

/-- **`malloc` in a run.**  It returns, with no pointer or with a block that is now live, and
changes no byte of the blocks that are live. -/
lemma malloc_spec (h : ProgOk sbrk base s C) (hbase : 0 < base) (hb : base + HEADER ≤ 2 ^ 64)
    (hsbrk : Fresh sbrk base) (hsmall : Small nbytes) :
    ∃ r h' C', Ends (fun fuel => malloc sbrk base fuel nbytes s.heap) (r, h') ∧
      ((r = 0 ∧ ProgOk sbrk base ⟨h', s.live⟩ C' ∧
          (ask sbrk (unitsOf nbytes) s.heap.calls).answer = SBRK_ERROR) ∨
        (r ≠ 0 ∧ ProgOk sbrk base ⟨h', ⟨r, nbytes⟩ :: s.live⟩ C')) ∧
      (h'.calls = s.heap.calls ∨
        h'.calls = ask sbrk (unitsOf nbytes) s.heap.calls :: s.heap.calls) ∧
      ∀ a ∈ s.live, ∀ i, a.chunk.Has i → h'.mem i = s.heap.mem i := by
  have hinv := h.initHeap hbase hb
  have hu := le_unitsOf hsmall.1
  have hlt : unitsOf nbytes < 2 ^ 27 := by
    have := hsmall.2
    unfold HEADER at this
    omega
  have hsame := initHeap_calls base s.heap
  obtain ⟨r, h', C', N, hloop, hres, hcalls, hkeep⟩ := hinv.mallocLoop_inv hbase hu.1 hlt
    (by rw [hsame]; exact hsbrk _ h.1.2)
  rw [hsame] at hcalls hres
  have hhonest : Honest sbrk h'.calls := by
    rcases hcalls with hc | hc <;> rw [hc]
    · exact h.1.2
    · refine ⟨⟨?_, rfl⟩, h.1.2⟩
      unfold ask coreUnits HEADER
      dsimp only
      split <;> omega
  have hmem : ∀ a ∈ s.live, ∀ i, a.chunk.Has i →
      (Umalloc.initHeap base s.heap).mem i = s.heap.mem i := by
    intro a ha i _
    rcases h.2 with ⟨hl, -, -⟩ | hinv'
    · simp [hl] at ha
    · rw [Umalloc.initHeap, if_neg (hinv'.freep_ne_zero hbase)]
  refine ⟨r, h', C', ⟨N, hloop⟩, ?_, hcalls, fun a ha i hi => ?_⟩
  · rcases hres with ⟨hr, hinv', herr⟩ | ⟨x, hr, hxn, hinv'⟩
    · exact Or.inl ⟨hr, ⟨⟨h.1.1, hhonest⟩, Or.inr hinv'⟩, herr⟩
    · subst hr
      exact Or.inr ⟨by unfold HEADER; omega, h.cons hsmall.1 hxn hhonest hinv'⟩
  · rw [hkeep a.chunk (mem_map_of_mem ha) i hi, hmem a ha i hi]

/-- A free block is large enough: no memory is asked for. -/
lemma malloc_large_spec (h : ProgOk sbrk base s C) (hbase : 0 < base) (hb : base + HEADER ≤ 2 ^ 64)
    (hn : nbytes < 2 ^ 32) (hex : ∃ c ∈ C, unitsOf nbytes ≤ c.units) :
    ∃ r h' C', Ends (fun fuel => malloc sbrk base fuel nbytes s.heap) (r, h') ∧ r ≠ 0 ∧
      ProgOk sbrk base ⟨h', ⟨r, nbytes⟩ :: s.live⟩ C' ∧ h'.calls = s.heap.calls := by
  have hinv := h.initHeap hbase hb
  have hu := le_unitsOf hn
  obtain ⟨pre, b, c, suf, rfl, hcn, hloop⟩ :=
    mallocLoop_found sbrk hinv.free hinv.freep hu.1 hex
  obtain ⟨x, h', C', htake, hxn, hinv', hcalls, -⟩ := hinv.take_inv hu.1
    (by unfold unitsOf; omega) hcn
  rw [initHeap_calls] at hcalls
  refine ⟨x.addr + HEADER, h', C', ⟨(pre ++ b :: c :: suf).length, fun fuel hfuel => ?_⟩,
    by unfold HEADER; omega, h.cons hn hxn (by rw [hcalls]; exact h.1.2) hinv', hcalls⟩
  exact (hloop fuel hfuel).trans (by rw [htake])

/-! ## The record of calls -/

section Calls

variable {n fuel p ap r : ℕ} {h h' : Heap}

lemma calls_free (hf : free fuel ap h = some h') : h'.calls = h.calls := by
  unfold free at hf
  obtain ⟨p, -, rfl⟩ := Option.map_eq_some_iff.mp hf
  rfl

lemma calls_morecore (hm : morecore sbrk fuel n h = some (p, h')) :
    h'.calls = ⟨toInt (coreUnits n * HEADER), sbrk h.calls (toInt (coreUnits n * HEADER))⟩ ::
      h.calls := by
  unfold morecore at hm
  dsimp only at hm
  split at hm
  · obtain ⟨-, rfl⟩ := Prod.mk.inj (Option.some.inj hm)
    rfl
  · obtain ⟨g, hg, heq⟩ := Option.map_eq_some_iff.mp hm
    obtain ⟨-, rfl⟩ := Prod.mk.inj heq
    rw [calls_free hg]

/-- The record of calls only grows, whatever the list looks like. -/
lemma calls_mallocLoop : ∀ (fuel prevp p : ℕ) (h : Heap) {r : ℕ} {h' : Heap},
    mallocLoop sbrk n fuel prevp p h = some (r, h') → h.calls <:+ h'.calls
  | 0, _, _, _, _, _, hl => by simp [mallocLoop] at hl
  | fuel + 1, prevp, p, h, r, h', hl => by
    unfold mallocLoop at hl
    split at hl
    · have heq := congrArg (fun x => x.2.calls) (Option.some.inj hl)
      have htake : (takeUnits n prevp p h).2.calls = h.calls := by
        unfold takeUnits
        split <;> rfl
      dsimp only at heq
      rw [← heq, htake]
    split at hl
    · split at hl
      · simp at hl
      next q g hm =>
        have hcalls := calls_morecore hm
        have hsuf : h.calls <:+ g.calls := by
          rw [hcalls]
          exact suffix_cons _ _
        split at hl
        · obtain ⟨-, rfl⟩ := Prod.mk.inj (Option.some.inj hl)
          exact hsuf
        · exact hsuf.trans (calls_mallocLoop fuel _ _ g hl)
    · exact calls_mallocLoop fuel _ _ h hl

/-- The amount that `malloc(nbytes)` passes to `sbrk` when no free block is large enough. -/
def amountOf (nbytes : ℕ) : ℤ := toInt (coreUnits (unitsOf nbytes) * HEADER)

/-- No free block is large enough: the kernel is asked. -/
lemma exists_call (hok : ProgOk sbrk base s C) (hbase : 0 < base) (hb : base + HEADER ≤ 2 ^ 64)
    (hsmall : ∀ c ∈ C, c.units < unitsOf nbytes)
    (hend : Ends (fun fuel => malloc sbrk base fuel nbytes s.heap) (r, h')) :
    ∃ l answer, h'.calls = l ++ ⟨amountOf nbytes, answer⟩ :: s.heap.calls := by
  have hinv := hok.initHeap hbase hb
  obtain ⟨N, hend⟩ := hend
  have hrun : malloc sbrk base (C.length + N) nbytes s.heap = some (r, h') := hend _ (by omega)
  rw [malloc, mallocLoop_none sbrk hinv.free hinv.freep hsmall] at hrun
  split at hrun
  · simp at hrun
  next q g hm =>
    have hcalls := calls_morecore hm
    rw [initHeap_calls] at hcalls
    have hsuf : g.calls <:+ h'.calls := by
      split at hrun
      · obtain ⟨-, rfl⟩ := Prod.mk.inj (Option.some.inj hrun)
        exact suffix_rfl
      · exact calls_mallocLoop _ _ _ g hrun
    rw [hcalls] at hsuf
    obtain ⟨l, hl⟩ := hsuf
    exact ⟨l, _, hl.symm⟩

end Calls

/-- **`malloc` in a run.**  A request that has been met is now live. -/
lemma served_spec {h' : Heap} (h : ProgOk sbrk base s C) (hbase : 0 < base)
    (hb : base + HEADER ≤ 2 ^ 64) (hsbrk : Fresh sbrk base) (hserved : Served nbytes s.heap h')
    {ap : ℕ} (hap : ap ≠ 0)
    (hend : Ends (fun fuel => malloc sbrk base fuel nbytes s.heap) (ap, h')) :
    ∃ C', ProgOk sbrk base ⟨h', ⟨ap, nbytes⟩ :: s.live⟩ C' := by
  rcases hserved with hsmall | ⟨hn, hcalls⟩
  · obtain ⟨r, h', C', hend', hres, -, -⟩ := malloc_spec h hbase hb hsbrk hsmall
    obtain ⟨rfl, rfl⟩ := Prod.mk.inj (hend.unique hend')
    rcases hres with ⟨hr, -⟩ | ⟨-, hok⟩
    · exact absurd hr hap
    · exact ⟨C', hok⟩
  · by_cases hex : ∃ c ∈ C, unitsOf nbytes ≤ c.units
    · obtain ⟨r, h', C', hend', -, hok, -⟩ := malloc_large_spec h hbase hb hn hex
      obtain ⟨rfl, rfl⟩ := Prod.mk.inj (hend.unique hend')
      exact ⟨C', hok⟩
    · -- then the kernel would have been asked
      obtain ⟨l, answer, hl⟩ := exists_call h hbase hb
        (fun c hc => not_le.mp fun hge => hex ⟨c, hc, hge⟩) hend
      have hlen := congrArg length (hcalls.symm.trans hl)
      simp only [length_append, length_cons] at hlen
      omega

/-- **`free` in a run.**  It returns and changes no byte of the blocks that stay live. -/
lemma free_live_spec (h : ProgOk sbrk base s C) (hbase : 0 < base) (ha : a ∈ s.live) :
    ∃ h' C', Ends (fun fuel => free fuel a.ap s.heap) h' ∧ ProgOk sbrk base ⟨h', s.live.erase a⟩ C' ∧
      h'.calls = s.heap.calls ∧ ∀ b ∈ s.live.erase a, ∀ i, b.chunk.Has i → h'.mem i = s.heap.mem i := by
  have hinv : HeapInv base s.heap (s.live.map Alloc.chunk) C :=
    h.2.resolve_left fun hl => by simp [hl.1] at ha
  have hperm : (s.live.map Alloc.chunk).Perm (a.chunk :: (s.live.erase a).map Alloc.chunk) :=
    (perm_cons_erase ha).map Alloc.chunk
  obtain ⟨m', p, C', hfree, hinv', -, hkeep⟩ := (hinv.perm hperm).free_inv hbase
  have hap : a.chunk.addr + HEADER = a.ap := Nat.sub_add_cancel (h.1.1 a ha).2
  rw [hap] at hfree
  exact ⟨_, C', ⟨_, hfree⟩, ⟨⟨fun b hb => h.1.1 b (mem_of_mem_erase hb), h.1.2⟩, Or.inr hinv'⟩,
    rfl, fun b hb i hi => hkeep b.chunk (mem_map_of_mem hb) i hi⟩

/-- A byte asked for belongs to the block but not to its header. -/
lemma Alloc.Usable.has (hn : a.nbytes < 2 ^ 32) (hap : HEADER ≤ a.ap)
    (hi : a.Usable i) : a.chunk.addr + HEADER ≤ i ∧ i < a.chunk.stop := by
  have hu := le_unitsOf hn
  unfold Alloc.Usable at hi
  rw [Chunk.stop_eq (c := a.chunk) hu.1]
  unfold Alloc.chunk
  dsimp only
  omega

/-- A write of the program into one of its blocks. -/
lemma store_spec (h : ProgOk sbrk base s C) (ha : a ∈ s.live) (hi : a.Usable i)
    (v : Byte) : ProgOk sbrk base ⟨{ s.heap with mem := Function.update s.heap.mem i v }, s.live⟩ C := by
  have hinv : HeapInv base s.heap (s.live.map Alloc.chunk) C :=
    h.2.resolve_left fun hl => by simp [hl.1] at ha
  have hia := hi.has (h.1.1 a ha).1 (h.1.1 a ha).2
  have hai : a.chunk.Has i := ⟨by omega, hia.2⟩
  have hne : ∀ c : Chunk, c ∈ s.live.map Alloc.chunk ++ C → ∀ j, c.addr ≤ j → j < c.addr + HEADER →
      Function.update s.heap.mem i v j = s.heap.mem j := fun c hc j h₁ h₂ => by
    refine Function.update_of_ne ?_ _ _
    rintro rfl
    have hcj : c.Has j := ⟨h₁, lt_of_lt_of_le h₂ c.header_le_stop⟩
    by_cases hca : c = a.chunk
    · subst hca
      omega
    rcases mem_append.mp hc with hc | hc
    · have hd := hinv.pairwise.forall hc (mem_map_of_mem ha) hca
      exact Chunk.disjoint_iff.mp hd j hcj hai
    · exact Chunk.disjoint_iff.mp (hinv.apart _ (mem_map_of_mem ha) c hc) j hai hcj
  exact ⟨h.1, Or.inr (hinv.congr hne)⟩

section Run

variable (hbase : 0 < base) (hb : base + HEADER ≤ 2 ^ 64)
  (hsbrk : Fresh sbrk base)

include hbase hb hsbrk

lemma ProgOk.step (h : ProgOk sbrk base s C) (hstep : Step sbrk base s op t) : ∃ C', ProgOk sbrk base t C' := by
  cases hstep with
  | null hsmall hend =>
    obtain ⟨r, h', C', hend', hres, -, -⟩ := malloc_spec h hbase hb hsbrk hsmall
    obtain ⟨rfl, rfl⟩ := Prod.mk.inj (hend.unique hend')
    rcases hres with ⟨-, hok, -⟩ | ⟨hr, -⟩
    · exact ⟨C', hok⟩
    · exact absurd rfl hr
  | malloc hserved hap hend => exact served_spec h hbase hb hsbrk hserved hap hend
  | free ha hend =>
    obtain ⟨h', C', hend', hok, -, -⟩ := free_live_spec h hbase ha
    obtain rfl := hend.unique hend'
    exact ⟨C', hok⟩
  | store ha hi => exact ⟨C, store_spec h ha hi _⟩

lemma ProgOk.runs (h : ProgOk sbrk base s C) (hrun : Runs sbrk base s ops t) : ∃ C', ProgOk sbrk base t C' := by
  induction hrun generalizing C with
  | nil => exact ⟨C, h⟩
  | cons hstep _ ih =>
    obtain ⟨C', hC'⟩ := h.step hbase hb hsbrk hstep
    exact ih hC'

end Run

lemma progOk_start (sbrk : List Call → ℤ → ℕ) (base : ℕ) (m : Bytes) :
    ProgOk sbrk base ⟨{ mem := m }, []⟩ [⟨base, 0⟩] :=
  ⟨⟨by simp, trivial⟩, Or.inl ⟨rfl, rfl, m, rfl⟩⟩

/-! ## A kernel that grants memory without gaps -/

/-- The end of the memory granted so far. -/
def topOf (base : ℕ) : List Call → ℕ
  | [] => base + HEADER
  | c :: cs =>
    if c.answer = SBRK_ERROR then topOf base cs
    else max (topOf base cs) (c.answer + c.amount).toNat

/-- A kernel that grants the memory after what it granted before, while there are addresses. -/
def adjacentSbrk (base : ℕ) (calls : List Call) (n : ℤ) : ℕ :=
  if topOf base calls + n < 2 ^ 64 then topOf base calls else SBRK_ERROR

lemma base_le_topOf (base : ℕ) (calls : List Call) : base + HEADER ≤ topOf base calls := by
  induction calls with
  | nil => exact le_rfl
  | cons c cs ih =>
    unfold topOf
    split <;> omega

lemma le_topOf (base : ℕ) {c : Call} (hc : c ∈ calls)
    (hne : c.answer ≠ SBRK_ERROR) : (c.answer : ℤ) + c.amount ≤ topOf base calls := by
  induction calls with
  | nil => simp at hc
  | cons d cs ih =>
    unfold topOf
    rcases mem_cons.mp hc with rfl | hc
    · rw [if_neg hne]
      omega
    · have := ih hc
      split <;> omega

lemma adjacentSbrk_fresh (base : ℕ) : Fresh (adjacentSbrk base) base := by
  intro calls _ n _
  unfold adjacentSbrk
  split
  next h => exact Or.inr ⟨base_le_topOf base calls, h, fun c hc hne => le_topOf base hc hne⟩
  next => exact Or.inl rfl

/-! ## What holds in every state -/

/-- What a program may rely on, and what the allocator's data look like.  `C` is the free list,
with the static header as its first chunk. -/
structure HeapOk (sbrk : List Call → ℤ → ℕ) (base : ℕ) (s : Prog) (C : List Chunk) : Prop where
  -- the bytes of a block were granted by `sbrk`; no other block and no header has any of them
  granted : ∀ a ∈ s.live, ∀ i, a.Usable i → ∃ c ∈ s.heap.calls, c.Has i
  blocks : ∀ a ∈ s.live, ∀ i, a.Usable i → ∀ b ∈ s.live, b ≠ a → ¬b.chunk.Has i
  header : ∀ a ∈ s.live, ∀ i, a.Usable i → a.chunk.addr + HEADER ≤ i ∧ i < a.chunk.stop
  free : ∀ a ∈ s.live, ∀ i, a.Usable i → ∀ c ∈ C, ¬c.Has i
  distinct : s.live.Nodup
  -- the list is circular, its addresses increase, and no two chunks are neighbours
  ring : s.heap.freep ≠ 0 → FreeList s.heap.mem base C ∧ s.heap.freep ∈ addrs C
  empty : s.heap.freep = 0 → s.live = [] ∧ s.heap.calls = [] ∧ C = [⟨base, 0⟩]
  -- nothing is lost but multiples of `2 ^ 32` units
  units : ∃ lost, units C + units (s.live.map Alloc.chunk) + 2 ^ 32 * lost = obtained s.heap.calls
  -- the calls return and change no byte of the live blocks
  malloc : ∀ nbytes, Small nbytes → ∃ r h',
    Ends (fun fuel => malloc sbrk base fuel nbytes s.heap) (r, h') ∧
      ∀ a ∈ s.live, ∀ i, a.Usable i → h'.mem i = s.heap.mem i
  frees : ∀ a ∈ s.live, ∃ h', Ends (fun fuel => Umalloc.free fuel a.ap s.heap) h' ∧
    ∀ b ∈ s.live, b ≠ a → ∀ i, b.Usable i → h'.mem i = s.heap.mem i

/-- The blocks of distinct pointers are distinct, and a pointer is handed out once. -/
lemma HeapInv.nodup {h : Heap} {live : List Alloc}
    (hinv : HeapInv base h (live.map Alloc.chunk) C) : live.Nodup := by
  have hp := pairwise_map.mp hinv.pairwise
  refine hp.imp fun {a b} hab heq => ?_
  subst heq
  exact Chunk.disjoint_iff.mp hab a.chunk.addr a.chunk.has_addr a.chunk.has_addr

lemma ProgOk.heapOk (h : ProgOk sbrk base s C) (hbase : 0 < base) (hb : base + HEADER ≤ 2 ^ 64)
    (hsbrk : Fresh sbrk base) :
    HeapOk sbrk base s C := by
  have hlive : ∀ a ∈ s.live, HeapInv base s.heap (s.live.map Alloc.chunk) C := fun a ha =>
    h.2.resolve_left fun hl => by simp [hl.1] at ha
  have hhas : ∀ a ∈ s.live, ∀ i, a.Usable i → a.chunk.addr + HEADER ≤ i ∧ i < a.chunk.stop :=
    fun a ha i hi => hi.has (h.1.1 a ha).1 (h.1.1 a ha).2
  have hHas : ∀ a ∈ s.live, ∀ i, a.Usable i → a.chunk.Has i := fun a ha i hi =>
    ⟨(Nat.le_add_right _ _).trans (hhas a ha i hi).1, (hhas a ha i hi).2⟩
  have hnodup : s.live.Nodup := by
    rcases h.2 with ⟨hl, -⟩ | hinv
    · simp [hl]
    · exact hinv.nodup
  refine ⟨fun a ha i hi => ?_, fun a ha i hi b hb' hne hbi => ?_, hhas, fun a ha i hi c hc hci => ?_,
    hnodup, fun hfreep => ?_, fun hfreep => ?_, ?_, fun nbytes hsmall => ?_, fun a ha => ?_⟩
  · exact (hlive a ha).granted_of_live (mem_map_of_mem ha) i (hHas a ha i hi)
  · have hp := pairwise_map.mp (hlive a ha).pairwise
    have hd := hp.forall hb' ha hne
    exact Chunk.disjoint_iff.mp hd i hbi (hHas a ha i hi)
  · have hd := (hlive a ha).apart a.chunk (mem_map_of_mem ha) c hc
    exact Chunk.disjoint_iff.mp hd i (hHas a ha i hi) hci
  · rcases h.2 with ⟨-, -, m, hm⟩ | hinv
    · rw [hm] at hfreep
      exact absurd rfl hfreep
    · exact ⟨hinv.free, hinv.freep⟩
  · rcases h.2 with ⟨hl, hC, m, hm⟩ | hinv
    · exact ⟨hl, by rw [hm], hC⟩
    · exact absurd hfreep (hinv.freep_ne_zero hbase)
  · rcases h.2 with ⟨hl, rfl, m, hm⟩ | hinv
    · exact ⟨0, by simp [hl, hm, obtained]⟩
    · exact hinv.units
  · obtain ⟨r, h', C', hend, -, -, hkeep⟩ := malloc_spec h hbase hb hsbrk hsmall
    exact ⟨r, h', hend, fun a ha i hi => hkeep a ha i (hHas a ha i hi)⟩
  · obtain ⟨h', C', hend, -, -, hkeep⟩ := free_live_spec h hbase ha
    refine ⟨h', hend, fun b hb' hne i hi => hkeep b ?_ i (hHas b hb' i hi)⟩
    exact (mem_erase_of_ne hne).mpr hb'

/-- **The heap allocator never overlaps blocks.**  In every state of every run, whatever memory
`sbrk` grants above the memory granted before: the blocks handed out are disjoint from each other,
from the free list and from all headers; the free list is circular, ordered and fully joined; the
calls return and leave the live blocks alone; and the units in free and live blocks are those
obtained, up to multiples of `2 ^ 32`, so all of them as long as fewer than `2 ^ 32` were obtained. -/
theorem heap_blocks_never_overlap (hbase : 0 < base) (hb : base + HEADER ≤ 2 ^ 64)
    (hsbrk : Fresh sbrk base) (m : Bytes)
    (hrun : Runs sbrk base ⟨{ mem := m }, []⟩ ops s) :
    ∃ C, HeapOk sbrk base s C ∧ (obtained s.heap.calls < 2 ^ 32 →
      units C + units (s.live.map Alloc.chunk) = obtained s.heap.calls) := by
  obtain ⟨C, hC⟩ := (progOk_start sbrk base m).runs hbase hb hsbrk hrun
  have hok := hC.heapOk hbase hb hsbrk
  refine ⟨C, hok, fun hlt => ?_⟩
  obtain ⟨lost, hl⟩ := hok.units
  omega

/-- A program that asks for a hundred bytes and for two hundred, and gets both. -/
theorem heap_blocks_never_overlap_twoBlocks :
    ∃ s, Runs (adjacentSbrk 16) 16 ⟨{ mem := fun _ => 0 }, []⟩ [.malloc 100, .malloc 200] s ∧
      s.live.map Alloc.nbytes = [200, 100] ∧ ∃ C, HeapOk (adjacentSbrk 16) 16 s C ∧
        (obtained s.heap.calls < 2 ^ 32 →
          units C + units (s.live.map Alloc.chunk) = obtained s.heap.calls) := by
  have hsmall : Small 100 ∧ Small 200 := by unfold Small; decide
  have hfresh := adjacentSbrk_fresh 16
  obtain ⟨r, h₁, C₁, hend₁, hres₁, hcalls, -⟩ := malloc_spec
    (progOk_start (adjacentSbrk 16) 16 fun _ => 0) (by decide) (by decide) hfresh hsmall.1
  rcases hres₁ with ⟨-, -, herr⟩ | ⟨hr, hok⟩
  · exact absurd herr (by decide)
  obtain ⟨q, h₂, C₂, hend₂, hres₂, -, -⟩ := malloc_spec hok (by decide) (by decide) hfresh hsmall.2
  rcases hres₂ with ⟨-, -, herr⟩ | ⟨hq, -⟩
  · rcases hcalls with hc | hc <;> exact absurd (hc ▸ herr) (by decide)
  have hrun : Runs (adjacentSbrk 16) 16 ⟨{ mem := fun _ => 0 }, []⟩ [.malloc 100, .malloc 200]
      ⟨h₂, [⟨q, 200⟩, ⟨r, 100⟩]⟩ :=
    .cons (.malloc (.inl hsmall.1) hr hend₁) (.cons (.malloc (.inl hsmall.2) hq hend₂) .nil)
  exact ⟨_, hrun, rfl, heap_blocks_never_overlap (by decide) (by decide) hfresh _ hrun⟩

/-! ## Memory that is lost

Memory granted without gaps lets the free chunks grow together.  Once they make up
`2 ^ 32` units, the size of the one chunk they form does not fit its field. -/

/-- The memory granted has no gaps. -/
def Gapless (base : ℕ) (calls : List Call) : Prop :=
  topOf base calls = base + HEADER + HEADER * obtained calls

lemma gapless_ask {n : ℕ} (h : Gapless base calls) :
    Gapless base (ask (adjacentSbrk base) n calls :: calls) := by
  unfold Gapless at *
  unfold topOf obtained
  by_cases herr : (ask (adjacentSbrk base) n calls).answer = SBRK_ERROR
  · rw [if_pos herr, if_pos herr, Nat.zero_add, h]
  · rw [if_neg herr, if_neg herr]
    have hans : (ask (adjacentSbrk base) n calls).answer = topOf base calls := by
      unfold ask adjacentSbrk at *
      dsimp only at *
      split at herr
      next hlt => rw [if_pos hlt]
      next => exact absurd rfl herr
    have hdiv : coreUnits n * HEADER / HEADER = coreUnits n := Nat.mul_div_cancel _ (by decide)
    rw [hans, ask, Int.toNat_natCast, hdiv, h]
    dsimp only
    unfold HEADER at *
    omega

/-- Chunks of a list with something between any two of them do not fill an interval. -/
lemma units_add_length_le (L : List Chunk) : ∀ lo hi : ℕ, L.Pairwise Chunk.Before →
    (∀ c ∈ L, lo ≤ c.addr ∧ c.stop ≤ hi) → L ≠ [] → HEADER * units L + L.length ≤ hi - lo + 1 := by
  induction L with
  | nil => exact fun _ _ _ _ h => absurd rfl h
  | cons c L ih =>
    intro lo hi hs hin _
    obtain ⟨hc, hs'⟩ := pairwise_cons.mp hs
    have hcin := hin c mem_cons_self
    have hcu := c.units_le_stop
    rw [units_cons, length_cons]
    by_cases hL : L = []
    · subst hL
      rw [units_nil]
      unfold HEADER at *
      simp only [length_nil]
      omega
    · have hih := ih (c.addr + HEADER * c.units + 1) hi hs' (fun d hd => ⟨?_, (hin d (by simp [hd])).2⟩) hL
      · obtain ⟨d, hd⟩ := exists_mem_of_ne_nil L hL
        have h₁ := (hc d hd)
        have h₂ := (hin d (by simp [hd])).2
        have h₃ := d.header_le_stop
        have h₄ := h₁.1
        have h₅ := h₁.2
        unfold HEADER at *
        omega
      · have h₁ := hc d hd
        have h₂ := h₁.1
        have h₃ := h₁.2
        omega

section Adjacent

variable (hbase : 0 < base) (hb : base ≤ 2 ^ 32)

include hbase hb

/-- With such a kernel a program gets all the blocks it asks for, up to a bound. -/
lemma exists_runs_malloc {n : ℕ} (hn : Small n) (hcore : coreUnits (unitsOf n) = unitsOf n) (k : ℕ) :
    ∀ (s : Prog) (C : List Chunk), ProgOk (adjacentSbrk base) base s C → Gapless base s.heap.calls →
      obtained s.heap.calls + k * unitsOf n ≤ 2 ^ 40 →
      ∃ ops t C', Runs (adjacentSbrk base) base s ops t ∧ ProgOk (adjacentSbrk base) base t C' ∧
        Gapless base t.heap.calls ∧
        units (t.live.map Alloc.chunk) = units (s.live.map Alloc.chunk) + k * unitsOf n := by
  induction k with
  | zero => exact fun s C hs hg _ => ⟨[], s, C, .nil, hs, hg, by simp⟩
  | succ k ih =>
    intro s C hs hg hle
    rw [Nat.succ_mul] at hle
    obtain ⟨r, h', C', hend, hres, hcalls, -⟩ := malloc_spec hs hbase (by unfold HEADER; omega)
      (adjacentSbrk_fresh base) hn
    have hans : (ask (adjacentSbrk base) (unitsOf n) s.heap.calls).answer ≠ SBRK_ERROR := by
      have hnlt := hn.2
      unfold Gapless at hg
      unfold ask adjacentSbrk SBRK_ERROR
      rw [hcore, hg]
      dsimp only
      unfold HEADER at *
      push_cast
      rw [if_pos (by omega)]
      omega
    rcases hres with ⟨-, -, herr⟩ | ⟨hr, hok⟩
    · exact absurd herr hans
    have hg' : Gapless base h'.calls := by
      rcases hcalls with h | h <;> rw [h]
      · exact hg
      · exact gapless_ask hg
    have hob : obtained h'.calls ≤ obtained s.heap.calls + unitsOf n := by
      rcases hcalls with h | h <;> rw [h]
      · omega
      · have hdiv : coreUnits (unitsOf n) * HEADER / HEADER = coreUnits (unitsOf n) :=
          Nat.mul_div_cancel _ (by decide)
        rw [obtained, if_neg hans, ask, Int.toNat_natCast, hdiv, hcore]
        omega
    obtain ⟨ops, t, C'', hrun, ht, hgt, hu⟩ := ih ⟨h', ⟨r, n⟩ :: s.live⟩ C' hok hg' (by dsimp only; omega)
    refine ⟨.malloc n :: ops, t, C'', .cons (.malloc (.inl hn) hr hend) hrun, ht, hgt, ?_⟩
    rw [hu, map_cons, units_cons, Nat.succ_mul, Alloc.chunk]
    dsimp only
    omega

omit hb in
/-- A program may free all it has. -/
lemma exists_runs_free (k : ℕ) : ∀ (s : Prog) (C : List Chunk), s.live.length = k → ProgOk (adjacentSbrk base) base s C →
    ∃ ops t C', Runs (adjacentSbrk base) base s ops t ∧ ProgOk (adjacentSbrk base) base t C' ∧ t.live = [] ∧
      t.heap.calls = s.heap.calls := by
  induction k with
  | zero => exact fun s C hk hs => ⟨[], s, C, .nil, hs, eq_nil_of_length_eq_zero hk, rfl⟩
  | succ k ih =>
    intro s C hk hs
    obtain ⟨a, ha⟩ := exists_mem_of_length_pos (l := s.live) (by omega)
    obtain ⟨h', C', hend, hok, hcalls, -⟩ := free_live_spec hs hbase ha
    obtain ⟨ops, t, C'', hrun, ht, hl, hc⟩ := ih ⟨h', s.live.erase a⟩ C'
      (by rw [length_erase_of_mem ha, hk]; rfl) hok
    exact ⟨.free a.ap :: ops, t, C'', .cons (.free ha hend) hrun, ht, hl, hc.trans hcalls⟩

omit hbase hb in
/-- When everything is free again and the memory has no gaps, one chunk would have to hold all the
units obtained. -/
lemma ProgOk.units_ne {C : List Chunk} (h : ProgOk (adjacentSbrk base) base s C)
    (hg : Gapless base s.heap.calls) (hbig : 2 ^ 32 ≤ obtained s.heap.calls) :
    units C ≠ obtained s.heap.calls := by
  intro heq
  have hinv : HeapInv base s.heap (s.live.map Alloc.chunk) C := by
    refine h.2.resolve_left ?_
    rintro ⟨-, -, m, hm⟩
    rw [hm] at hbig
    simp [obtained] at hbig
  obtain ⟨L, hL⟩ := hinv.free.head
  have hs := hinv.free.sorted
  rw [hL] at hs
  obtain ⟨hbefore, hsL⟩ := pairwise_cons.mp hs
  have hin : ∀ c ∈ L, base + HEADER ≤ c.addr ∧ c.stop ≤ topOf base s.heap.calls := fun c hc => by
    have hcb : c.addr ≠ base := (hbefore c hc).lt.ne'
    have hcg := hinv.granted c (mem_append_right _ (by rw [hL]; exact mem_cons_of_mem _ hc))
      hcb
    refine ⟨(hinv.bounds_of_granted hcg).1, ?_⟩
    have hh := c.header_le_stop
    obtain ⟨d, hd, hd₁, hd₂, hd₃⟩ := hcg (c.stop - 1)
      ⟨by unfold HEADER at hh; omega, by unfold HEADER at hh; omega⟩
    have := le_topOf base hd hd₁
    unfold HEADER at hh
    omega
  have hLu : units L = obtained s.heap.calls := by
    rw [hL, units_cons] at heq
    simpa using heq
  have hLne : L ≠ [] := by
    rintro rfl
    rw [units_nil] at hLu
    omega
  have hlen := units_add_length_le L _ _ hsL hin hLne
  unfold Gapless at hg
  rw [hg, hLu] at hlen
  obtain ⟨c, hc⟩ : ∃ c, L = [c] := by
    refine length_eq_one_iff.mp ?_
    have := length_pos_iff.mpr hLne
    unfold HEADER at hlen
    omega
  have hsize := hinv.free.sizes c (by rw [hL, hc]; simp)
  have hclt := size_lt s.heap.mem c.addr
  rw [hc, units_cons, units_nil] at hLu
  omega

end Adjacent

/-- The largest request whose rounded size in bytes is an `int`. -/
lemma small_huge : Small 2147483616 ∧ unitsOf 2147483616 = 2 ^ 27 - 1 :=
  ⟨⟨by decide, by decide⟩, by decide⟩

/-- **Units may be lost.**  A program that frees thirty-three blocks of two gigabytes ends with a
sound heap that does not account for the units obtained. -/
theorem units_lost : Fresh (adjacentSbrk 16) 16 ∧
    ∃ ops s C, Runs (adjacentSbrk 16) 16 ⟨{ mem := fun _ => 0 }, []⟩ ops s ∧
      HeapOk (adjacentSbrk 16) 16 s C ∧
      units C + units (s.live.map Alloc.chunk) ≠ obtained s.heap.calls := by
  refine ⟨adjacentSbrk_fresh 16, ?_⟩
  obtain ⟨ops, t, C, hrun, hok, hg, hu⟩ := exists_runs_malloc (by decide) (by decide)
    small_huge.1 (by decide) 33 ⟨{ mem := fun _ => 0 }, []⟩ _ (progOk_start _ 16 _) rfl
    (by rw [small_huge.2]; decide)
  obtain ⟨ops', u, C', hrun', hok', hl, hc⟩ :=
    exists_runs_free (by decide) _ t C rfl hok
  have hbig : 2 ^ 32 ≤ obtained u.heap.calls := by
    obtain ⟨lost, hlost⟩ := (hok.heapOk (by decide) (by decide) (adjacentSbrk_fresh 16)).units
    rw [small_huge.2] at hu
    rw [hc, ← hlost, hu]
    simp only [List.map_nil, units_nil]
    omega
  have hne := hok'.units_ne (by rw [hc]; exact hg) hbig
  refine ⟨ops ++ ops', u, C', hrun.append hrun',
    hok'.heapOk (by decide) (by decide) (adjacentSbrk_fresh 16), ?_⟩
  rwa [hl, List.map_nil, units_nil, Nat.add_zero]

end Umalloc
end Xv6
