import Xv6.Kernel.Calls
import Xv6.User.Program

/-!
# What `malloc` asks the kernel for

The size of a request goes through a 64-bit rounding, a 32-bit number of units, a 64-bit product and
the `int` parameter of `sbrk`.  `sbrkEager` is `sbrk` as the kernel computes it
(`sysSbrk_eager`): an amount that is not positive is a success and adds nothing.

`malloc_size_safe_iff` says exactly when the amount passed to `sbrk` is large enough: the request has
at most `2 ^ 31 - 32` bytes, or a free block satisfies it without new memory.
-/

namespace Xv6
namespace Umalloc

/-! ## `sbrk` in the kernel -/

/-- `sbrk(n)` for a process of `sz` bytes: the answer and the new size.  `room` says whether the
kernel finds memory. -/
def sbrkEager (room : Bool) (sz : ℕ) (n : ℤ) : ℕ × ℕ :=
  if 0 < n then
    if sz + n.toNat > TRAPFRAME ∨ room = false then (SBRK_ERROR, sz) else (sz, sz + n.toNat)
  else (sz, if n < 0 then min sz ((sz + n) % 2 ^ 64).toNat else sz)

/-- The size of a process that started with `sz₀` bytes, after the given calls. -/
def sizeAfter (room : ℕ → Bool) (sz₀ : ℕ) : List Call → ℕ
  | [] => sz₀
  | c :: cs => (sbrkEager (room cs.length) (sizeAfter room sz₀ cs) c.amount).2

/-- The kernel's answers to a process that started with `sz₀` bytes. -/
def kernelSbrk (room : ℕ → Bool) (sz₀ : ℕ) (calls : List Call) (n : ℤ) : ℕ :=
  (sbrkEager (room calls.length) (sizeAfter room sz₀ calls) n).1

/-- `sys_sbrk` with `SBRK_EAGER`, and its result as the program sees it. -/
lemma sysSbrk_eager [Layout] {z : Prop} {k : Kernel} {tab : ℕ → Option PageTable} {P : Finset ℕ}
    {H G : Multiset ℕ} {p : ℕ} (h : KernelInv z k tab P H G) (hp : p < NPROC)
    (hst : (k.proc p).state ≠ .unused) (n : ℤ) :
    Returns (Kernel.sysSbrk p n Kernel.SBRK_EAGER) (fun r k' => ∃ room,
      ((r % 2 ^ 64).toNat, (k'.proc p).sz) = sbrkEager room (k.proc p).sz n) k := by
  obtain ⟨T, -, -, -, huser⟩ := h.mem.tab_isSome hp hst
  have htf : TRAPFRAME < 2 ^ 64 := by decide
  have hsz : (((k.proc p).sz : ℤ) % 2 ^ 64).toNat = (k.proc p).sz := by
    have := huser.size_le
    omega
  simp only [Returns, Kernel.sysSbrk, wp_bind, wp_get]
  rw [if_pos (Or.inl trivial), wp_bind]
  refine (Kernel.growproc_spec h hp hst n).imp fun r k' hk' => ?_
  obtain ⟨-, hgrown⟩ := hk'
  unfold Kernel.Grown at hgrown
  by_cases hn : 0 < n
  · rw [if_pos hn] at hgrown
    rcases hgrown with ⟨rfl, hsz'⟩ | ⟨rfl, hsz', hle⟩
    · rw [wp_ite_pos (by decide), wp_pure]
      exact ⟨false, by simp [sbrkEager, hn, hsz', SBRK_ERROR]⟩
    · rw [wp_ite_neg (by decide), wp_pure]
      refine ⟨true, ?_⟩
      rw [hsz, hsz', sbrkEager, if_pos hn, if_neg (by simp; omega)]
  · rw [if_neg hn] at hgrown
    obtain ⟨rfl, hsz'⟩ := hgrown
    rw [wp_ite_neg (by decide), wp_pure]
    exact ⟨true, by rw [hsz, hsz', sbrkEager, if_neg hn]⟩

lemma sbrkEager_cases (room : Bool) (sz : ℕ) {n : ℤ} (hn : 0 < n) :
    sbrkEager room sz n = (SBRK_ERROR, sz) ∨
      (sbrkEager room sz n = (sz, sz + n.toNat) ∧ sz + n.toNat ≤ TRAPFRAME) := by
  unfold sbrkEager
  rw [if_pos hn]
  split
  next => exact Or.inl rfl
  next hle => exact Or.inr ⟨rfl, by omega⟩

variable {sz₀ nbytes : ℕ}

/-- The size of a process that has only asked for memory is the end of the memory granted. -/
lemma sizeAfter_spec {room : ℕ → Bool} (hsz : sz₀ ≤ TRAPFRAME) {calls : List Call}
    (h : Honest (kernelSbrk room sz₀) calls) :
    sz₀ ≤ sizeAfter room sz₀ calls ∧ sizeAfter room sz₀ calls ≤ TRAPFRAME ∧
      ∀ c ∈ calls, c.answer ≠ SBRK_ERROR → c.answer + c.amount ≤ (sizeAfter room sz₀ calls : ℤ) := by
  induction calls with
  | nil => exact ⟨le_rfl, hsz, by simp⟩
  | cons d cs ih =>
    obtain ⟨⟨hpos, hans⟩, hcs⟩ := h
    obtain ⟨h₁, h₂, h₃⟩ := ih hcs
    unfold sizeAfter
    unfold kernelSbrk at hans
    rcases sbrkEager_cases (room cs.length) (sizeAfter room sz₀ cs) hpos with heq | ⟨heq, hle⟩
    · rw [heq] at hans ⊢
      refine ⟨h₁, h₂, fun c hc hne => ?_⟩
      rcases List.mem_cons.mp hc with rfl | hc
      · exact absurd hans hne
      · exact h₃ c hc hne
    · rw [heq] at hans ⊢
      dsimp only at hans ⊢
      refine ⟨by omega, hle, fun c hc hne => ?_⟩
      rcases List.mem_cons.mp hc with rfl | hc
      · rw [hans]
        omega
      · have := h₃ c hc hne
        omega

/-- The kernel grants fresh memory to a program whose static data lie below its first size. -/
lemma kernelSbrk_fresh {room : ℕ → Bool} {base : ℕ} (hbase : base + HEADER ≤ sz₀)
    (hsz : sz₀ ≤ TRAPFRAME) : Fresh (kernelSbrk room sz₀) base := by
  intro calls hcalls n hn
  obtain ⟨h₁, h₂, h₃⟩ := sizeAfter_spec hsz hcalls
  unfold kernelSbrk
  rcases sbrkEager_cases (room calls.length) (sizeAfter room sz₀ calls) hn with heq | ⟨heq, hle⟩
  · exact Or.inl (by rw [heq])
  · have htf : TRAPFRAME < 2 ^ 64 := by decide
    rw [heq]
    exact Or.inr ⟨by dsimp only; omega, by dsimp only; omega, h₃⟩

/-! ## The amount -/

/-- The amount is at least what the block claims, and the request with its header. -/
def AmountOk (nbytes : ℕ) (amount : ℤ) : Prop :=
  0 < amount ∧ (nbytes : ℤ) + HEADER ≤ amount ∧
    ((coreUnits (unitsOf nbytes) * HEADER : ℕ) : ℤ) ≤ amount

lemma toInt_eq (n : ℕ) : toInt n =
    if n % 2 ^ 32 < 2 ^ 31 then ((n % 2 ^ 32 : ℕ) : ℤ) else (n % 2 ^ 32 : ℕ) - 2 ^ 32 := by
  rw [toInt, BitVec.toInt_ofNat', Int.bmod_def]
  split <;> split <;> omega

/-- The amount is right for the requests that fit an `int` with their header, and for no other. -/
lemma amountOk_iff (h : nbytes < 2 ^ 32) :
    AmountOk nbytes (amountOf nbytes) ↔ nbytes ≤ 2147483616 := by
  unfold AmountOk amountOf
  rw [toInt_eq]
  unfold coreUnits unitsOf HEADER
  constructor
  · rintro ⟨h₁, h₂, h₃⟩
    by_contra hgt
    split at h₃ <;> split at h₃ <;> omega
  · intro hle
    split <;> split <;> omega

lemma small_iff (h : nbytes < 2 ^ 32) : Small nbytes ↔ nbytes ≤ 2147483616 := by
  unfold Small unitsOf HEADER
  omega

/-! ## Exactly when a request is safe -/

variable {sbrk : List Call → ℤ → ℕ} {base : ℕ} {s : Prog} {C : List Chunk}

/-- What is expected of `malloc(nbytes)`: it returns; every amount it passes to `sbrk` is large
enough; and a pointer it returns has `nbytes` bytes of memory that `sbrk` granted. -/
def SafeMalloc (sbrk : List Call → ℤ → ℕ) (base : ℕ) (s : Prog) (nbytes : ℕ) : Prop :=
  ∃ r h', Ends (fun fuel => malloc sbrk base fuel nbytes s.heap) (r, h') ∧
    (∃ new, h'.calls = new ++ s.heap.calls ∧ ∀ c ∈ new, AmountOk nbytes c.amount) ∧
    (r = 0 ∨ ∀ i, r ≤ i → i < r + nbytes → ∃ c ∈ h'.calls, c.Has i)

/-- The bytes of a block that has been handed out were granted. -/
lemma ProgOk.granted_of_cons {h' : Heap} {r : ℕ} {live : List Alloc}
    (h : ProgOk sbrk base ⟨h', ⟨r, nbytes⟩ :: live⟩ C) :
    ∀ i, r ≤ i → i < r + nbytes → ∃ c ∈ h'.calls, c.Has i := by
  intro i h₁ h₂
  have hinv := h.2.resolve_left fun hl => by simp at hl
  obtain ⟨hn, hap⟩ := h.1.1 ⟨r, nbytes⟩ (by simp)
  have hhas := Alloc.Usable.has (a := ⟨r, nbytes⟩) hn hap ⟨h₁, h₂⟩
  exact hinv.granted_of_live List.mem_cons_self i ⟨by omega, hhas.2⟩

/-- A free block is large enough: no memory is asked for. -/
lemma safe_of_large (h : ProgOk sbrk base s C) (hbase : 0 < base) (hb : base + HEADER ≤ 2 ^ 64)
    (hn : nbytes < 2 ^ 32) (hex : ∃ c ∈ C, unitsOf nbytes ≤ c.units) :
    SafeMalloc sbrk base s nbytes := by
  obtain ⟨r, h', C', hend, -, hok, hcalls⟩ := malloc_large_spec h hbase hb hn hex
  exact ⟨r, h', hend, ⟨[], hcalls, by simp⟩, Or.inr hok.granted_of_cons⟩

/-- A request that fits an `int`. -/
lemma safe_of_small (h : ProgOk sbrk base s C) (hbase : 0 < base) (hb : base + HEADER ≤ 2 ^ 64)
    (hsbrk : Fresh sbrk base) (hsmall : Small nbytes) :
    SafeMalloc sbrk base s nbytes := by
  obtain ⟨r, h', C', hend, hres, hcalls, -⟩ := malloc_spec h hbase hb hsbrk hsmall
  have hok : AmountOk nbytes (ask sbrk (unitsOf nbytes) s.heap.calls).amount := by
    have hamount := (amountOk_iff hsmall.1).mpr ((small_iff hsmall.1).mp hsmall)
    rwa [amountOf, toInt_of_lt] at hamount
    have := hsmall.2
    unfold coreUnits HEADER at *
    split <;> omega
  refine ⟨r, h', hend, ?_, ?_⟩
  · rcases hcalls with hc | hc
    · exact ⟨[], hc, by simp⟩
    · exact ⟨[_], hc, by simpa using hok⟩
  · rcases hres with ⟨hr, -, -⟩ | ⟨hr, hok'⟩
    · exact Or.inl hr
    · exact Or.inr hok'.granted_of_cons

/-- No free block is large enough: the amount is passed to `sbrk`. -/
lemma amountOk_of_safe (h : ProgOk sbrk base s C) (hbase : 0 < base) (hb : base + HEADER ≤ 2 ^ 64)
    (hsmall : ∀ c ∈ C, c.units < unitsOf nbytes) (hsafe : SafeMalloc sbrk base s nbytes) :
    AmountOk nbytes (amountOf nbytes) := by
  obtain ⟨r, h', hend, ⟨new, hnew, hok⟩, -⟩ := hsafe
  obtain ⟨l, answer, hl⟩ := exists_call h hbase hb hsmall hend
  -- the new calls are those before the ones there were
  have heq : l ++ [⟨amountOf nbytes, answer⟩] = new :=
    List.append_cancel_right ((List.append_assoc _ _ _).trans (hl.symm.trans hnew))
  exact hok _ (by rw [← heq]; exact List.mem_append_right _ List.mem_cons_self)

/-- **When the size arithmetic of `malloc` is safe.**  In every state of every run, `malloc` asks for
enough memory and returns a block of the size asked for if and only if the request has at most
`2 ^ 31 - 32` bytes or a free block is large enough for it. -/
theorem malloc_size_safe_iff {ops : List Op} (hbase : 0 < base) (hb : base + HEADER ≤ 2 ^ 64)
    (hsbrk : Fresh sbrk base) (m : Bytes) (hrun : Runs sbrk base ⟨{ mem := m }, []⟩ ops s) :
    ∃ C, HeapOk sbrk base s C ∧ ∀ nbytes < 2 ^ 32, SafeMalloc sbrk base s nbytes ↔
      nbytes ≤ 2147483616 ∨ ∃ c ∈ C, unitsOf nbytes ≤ c.units := by
  obtain ⟨C, hC⟩ := (progOk_start sbrk base m).runs hbase hb hsbrk hrun
  refine ⟨C, hC.heapOk hbase hb hsbrk, fun nbytes hn => ⟨fun hsafe => ?_, fun hcond => ?_⟩⟩
  · by_cases hex : ∃ c ∈ C, unitsOf nbytes ≤ c.units
    · exact Or.inr hex
    · refine Or.inl ((amountOk_iff hn).mp (amountOk_of_safe hC hbase hb (fun c hc => ?_) hsafe))
      by_contra hge
      exact hex ⟨c, hc, by omega⟩
  · rcases hcond with hle | hex
    · exact safe_of_small hC hbase hb hsbrk ((small_iff hn).mpr hle)
    · exact safe_of_large hC hbase hb hn hex

/-- A process of sixteen pages whose static header is at `4096`. -/
theorem malloc_size_safe_iff_start : ∃ C,
    HeapOk (kernelSbrk (fun _ => true) 65536) 4096 ⟨{ mem := fun _ => 0 }, []⟩ C ∧
      ∀ nbytes < 2 ^ 32, SafeMalloc (kernelSbrk (fun _ => true) 65536) 4096
        ⟨{ mem := fun _ => 0 }, []⟩ nbytes ↔
          nbytes ≤ 2147483616 ∨ ∃ c ∈ C, unitsOf nbytes ≤ c.units :=
  malloc_size_safe_iff (by decide) (by decide) (kernelSbrk_fresh (by decide) (by decide)) _ .nil

/-- **A block without memory.**  In a process of sixteen pages, `malloc(4294967295)` asks the kernel
for sixteen bytes and returns a pointer to their end. -/
theorem malloc_without_memory :
    (malloc (kernelSbrk (fun _ => true) 65536) 4096 8 4294967295 { mem := fun _ => 0 }).map
        (fun r => (r.1, r.2.calls)) = some (65552, [⟨16, 65536⟩]) ∧
      ¬SafeMalloc (kernelSbrk (fun _ => true) 65536) 4096 ⟨{ mem := fun _ => 0 }, []⟩
        4294967295 := by
  refine ⟨by decide +kernel, fun hsafe => ?_⟩
  have hok := amountOk_of_safe (progOk_start (kernelSbrk (fun _ => true) 65536) 4096 fun _ => 0)
    (by decide) (by decide) (by decide) hsafe
  exact absurd ((amountOk_iff (by decide)).mp hok) (by decide)

end Umalloc
end Xv6
