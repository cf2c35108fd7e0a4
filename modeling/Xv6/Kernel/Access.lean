import Xv6.Kernel.Isolation
import Xv6.Vm.Access

/-!
# What the kernel accepts and what the user could access

Two paths decide whether a user address that is not mapped is good.  `usertrap` gives the faulting
address itself to `vmfault`, and the copy functions give it the address of the page.  They differ on
the rest of the last page when the size is not a multiple of the page size
(`copy_iff_access`).
-/

namespace Xv6

section

variable [Layout] {m m' : Mem} {T : PageTable} {R : Multiset ℕ} {sz tf va : ℕ}

/-- The address is at or above the size, but in a page that starts below it, and that page is not
mapped. -/
def SizeGap (T : PageTable) (sz va : ℕ) : Prop :=
  T.leaf (pageOf va) = none ∧ pgRoundDown va < sz ∧ sz ≤ va

lemma UserLeaf.has_R {e : Pte} (h : UserLeaf e) : e.has PTE_R = true := by
  obtain ⟨pa, perm, _, _, hR, rfl⟩ := h
  rw [leafEntry_has (by decide), has_R_or_V]
  exact hR

/-- The entries that allow the user an access allow a read. -/
lemma UserTable.has_R {e : Pte} {v : ℕ} (h : UserTable T sz tf) (he : T.leaf v = some e)
    (hU : e.has PTE_U = true) : e.has PTE_R = true := by
  by_cases hv : v < UPAGES
  · exact (h.user v e hv he).2.has_R
  · rw [h.noUser v e (by omega) he] at hU
    exact absurd hU (by decide)

omit [Layout] in
lemma not_sizeGap_of_some {e : Pte} (he : T.leaf (pageOf va) = some e) : ¬SizeGap T sz va :=
  fun hgap => absurd (he.symm.trans hgap.1) nofun

/-- Where the page is not mapped, the copy functions look at the size from the start of the page. -/
lemma UserTable.readable_iff_lt (h : UserTable T sz tf) (hnone : T.leaf (pageOf va) = none) :
    T.Readable sz (pageOf va) ↔ pgRoundDown va < sz := by
  have hsz : sz < MAXVA := lt_of_le_of_lt h.size_le (by decide)
  rw [PageTable.readable_of_none hnone]
  exact ⟨And.right, fun hlt => ⟨lt_trans hlt hsz, hlt⟩⟩

lemma readable_iff_load (h : UserTable T sz tf) {e : Pte} (he : T.leaf (pageOf va) = some e) :
    T.Readable sz (pageOf va) ↔ T.Accessible .load sz va := by
  rw [PageTable.readable_of_some he, PageTable.accessible_of_some he]
  simp only [Access.allowed, Bool.and_eq_true]
  constructor
  · rintro ⟨-, hU⟩
    exact ⟨hU, h.has_R he hU⟩
  · rintro ⟨hU, hR⟩
    have ha : Access.load.allowed e = true := by simp [Access.allowed, hU, hR]
    exact ⟨mul_lt_maxva (h.lt_of_allowed he ha), hU⟩

/-- `copyin` and loads, and `copyout` and stores, agree on an address unless it is in the gap. -/
lemma agree_iff_not_sizeGap (h : UserTable T sz tf) :
    ((T.Readable sz (pageOf va) ↔ T.Accessible .load sz va) ∧
      (T.Writable sz (pageOf va) ↔ T.Accessible .store sz va)) ↔ ¬SizeGap T sz va := by
  have hdown : pgRoundDown va ≤ va := Nat.div_mul_le_self va PGSIZE
  cases he : T.leaf (pageOf va) with
  | none =>
    have hwrite : T.Writable sz (pageOf va) ↔ T.Readable sz (pageOf va) :=
      and_iff_left fun e he' => absurd (he.symm.trans he') nofun
    rw [hwrite, h.readable_iff_lt he, PageTable.accessible_of_none he,
      PageTable.accessible_of_none he, and_self]
    constructor
    · rintro hiff ⟨-, hlt, hle⟩
      exact absurd (hiff.mp hlt) (by omega)
    · intro hgap
      refine ⟨fun hlt => ?_, fun hlt => by omega⟩
      by_contra hge
      exact hgap ⟨he, hlt, by omega⟩
  | some e =>
    refine iff_of_true ⟨readable_iff_load h he, ?_⟩ (not_sizeGap_of_some he)
    have hW : (∀ e', T.leaf (pageOf va) = some e' → e'.has PTE_W = true) ↔ e.has PTE_W = true :=
      ⟨fun hall => hall e he, fun hW e' he' => Option.some.inj (he.symm.trans he') ▸ hW⟩
    rw [PageTable.Writable, readable_iff_load h he, hW, PageTable.accessible_of_some he,
      PageTable.accessible_of_some he]
    simp only [Access.allowed, Bool.and_eq_true]

omit [Layout] in
/-- A copy of one byte succeeds if and only if its page is good. -/
lemma Reaches.one {P Q : ℕ → Prop} {done : Prop} {k : ℕ}
    (h : Reaches P Q (Lacks T m') va 1 done k) (hd : m'.denied = false) : done ↔ P (pageOf va) := by
  constructor
  · intro hdone
    have hok := h.ok 0 (by have := h.all hdone; omega)
    rwa [Nat.add_zero] at hok
  · intro hP
    by_contra hdone
    obtain ⟨hlt, hstop⟩ := h.stop hdone
    obtain rfl : k = 0 := by omega
    have hden := (hstop (by rwa [Nat.add_zero])).1
    rw [hd] at hden
    exact absurd hden (by decide)

/-- **The kernel accepts an address if and only if the user could access it, except in the gap.**
In every state of a process and for every address, as long as memory does not run out: `copyin` of
one byte succeeds if and only if a load would complete, and `copyout` if and only if a store would,
unless the address is at or above the size in a page that starts below the size and is not mapped.
There the kernel maps the page, and an access of the user would be fatal. -/
theorem copy_iff_access (h : SpaceOk m T R sz tf) (hva : va < 2 ^ 64) (src dst : Bytes) :
    ∃ rin min ld mld rout mout st mst,
      copyin T.root sz dst va 1 m = .ok (rin, min) ∧
      userAccess .load T.root sz va m = .ok (ld, mld) ∧
      copyout T.root sz va src 1 m = .ok (rout, mout) ∧
      userAccess .store T.root sz va m = .ok (st, mst) ∧
      (min.denied = false ∧ mld.denied = false ∧ mout.denied = false ∧ mst.denied = false →
        (((rin.1 = 0 ↔ ld ≠ none) ∧ (rout = 0 ↔ st ≠ none)) ↔ ¬SizeGap T sz va)) := by
  have hsz := h.table.size_le
  obtain ⟨rin, min, hin, _, kin, _, _, _, _, _, _, _, hrin, _⟩ :=
    (show Returns (copyin T.root sz dst va 1) _ m from
      h.space.copyin hsz h.table.noUser dst).exists_eq
  obtain ⟨rout, mout, hout, _, kout, _, _, _, _, _, _, hrout, _⟩ :=
    (show Returns (copyout T.root sz va src 1) _ m from
      h.space.copyout hsz h.table.noUser src).exists_eq
  -- An access completes if and only if the address is accessible.
  have hacc : ∀ a, ∃ r m', userAccess a T.root sz va m = .ok (r, m') ∧
      (m'.denied = false → (r ≠ none ↔ T.Accessible a sz va)) := by
    intro a
    obtain ⟨r, m', hr, T', _, _, _, _, _, _, hres⟩ :=
      (h.space.userAccess (a := a) h.table hva).exists_eq
    refine ⟨r, m', hr, fun hd => ?_⟩
    rcases hres with ⟨rfl, hlack⟩ | ⟨e, _, rfl, _, hyes, _⟩
    · refine iff_of_false (not_not.mpr rfl) fun hyes => ?_
      have hden := (hlack hyes).1
      rw [hd] at hden
      exact absurd hden (by decide)
    · exact iff_of_true nofun hyes
  obtain ⟨ld, mld, hld, hload⟩ := hacc .load
  obtain ⟨st, mst, hst, hstore⟩ := hacc .store
  refine ⟨rin, min, ld, mld, rout, mout, st, mst, hin, hld, hout, hst,
    fun ⟨hd₁, hd₂, hd₃, hd₄⟩ => ?_⟩
  rw [hrin.one hd₁, hload hd₂, hrout.one hd₃, hstore hd₄]
  exact agree_iff_not_sizeGap h.table

end

/-- The program returns such a result, and there has always been memory. -/
def endsWith {α : Type} (ok : α → Bool) (x : MemM α) (m : Mem) : Bool :=
  match x m with
  | .ok (a, m') => ok a && !m'.denied
  | .error _ => false

lemma endsWith_iff {α : Type} {ok : α → Bool} {x : MemM α} {m : Mem} :
    endsWith ok x m = true ↔ ∃ a m', x m = .ok (a, m') ∧ ok a = true ∧ m'.denied = false := by
  unfold endsWith
  cases hx : x m with
  | error e => simp
  | ok p => simp [Prod.ext_iff]

local instance layoutAccess : Layout := smallLayout

/-- The first process has grown lazily to 6000 bytes, and nothing of it is mapped.  The kernel copies
from and to the address 7000, with memory left, but a load or a store there is fatal. -/
theorem copy_beyond_size : ∃ k, run Kernel.step (Kernel.boot smallMem)
      [.userinit 1, .schedule 0, .sbrk 0 6000 2] = some k ∧ (k.proc 0).sz = 6000 ∧
    (∃ r m, copyin (k.proc 0).pagetable 6000 (fun _ => 0) 7000 1 k.mem = .ok (r, m) ∧
      r.1 = 0 ∧ m.denied = false) ∧
    (∃ m, userAccess .load (k.proc 0).pagetable 6000 7000 k.mem = .ok (none, m) ∧
      m.denied = false) ∧
    (∃ m, copyout (k.proc 0).pagetable 6000 7000 (fun _ => 1) 1 k.mem = .ok (0, m) ∧
      m.denied = false) ∧
    ∃ m, userAccess .store (k.proc 0).pagetable 6000 7000 k.mem = .ok (none, m) ∧
      m.denied = false := by
  have hrun : (run Kernel.step (Kernel.boot smallMem)
      [.userinit 1, .schedule 0, .sbrk 0 6000 2]).map (fun k =>
        let p := (k.proc 0).pagetable
        ((k.proc 0).sz, endsWith (·.1 = 0) (copyin p 6000 (fun _ => 0) 7000 1) k.mem &&
          endsWith (· = none) (userAccess .load p 6000 7000) k.mem &&
          endsWith (· = 0) (copyout p 6000 7000 (fun _ => 1) 1) k.mem &&
          endsWith (· = none) (userAccess .store p 6000 7000) k.mem)) = some (6000, true) := by
    decide +kernel
  obtain ⟨k, hk, h⟩ := Option.map_eq_some_iff.mp hrun
  simp only [Prod.mk.injEq, Bool.and_eq_true, endsWith_iff, decide_eq_true_eq] at h
  obtain ⟨hsz, ⟨⟨⟨r, m₁, h₁, hr, hd₁⟩, _, m₂, h₂, rfl, hd₂⟩, _, m₃, h₃, rfl, hd₃⟩,
    _, m₄, h₄, rfl, hd₄⟩ := h
  exact ⟨k, hk, hsz, ⟨r, m₁, h₁, hr, hd₁⟩, ⟨m₂, h₂, hd₂⟩, ⟨m₃, h₃, hd₃⟩, m₄, h₄, hd₄⟩

/-- In the same state the kernel and the user agree on the address 5000. -/
theorem copy_iff_access_below : ∃ k T R, run Kernel.step (Kernel.boot smallMem)
      [.userinit 1, .schedule 0, .sbrk 0 6000 2] = some k ∧
    SpaceOk k.mem T R 6000 (k.proc 0).trapframe ∧ ¬SizeGap T 6000 5000 ∧
    ∃ rin min ld mld rout mout st mst,
      copyin T.root 6000 (fun _ => 0) 5000 1 k.mem = .ok (rin, min) ∧
      userAccess .load T.root 6000 5000 k.mem = .ok (ld, mld) ∧
      copyout T.root 6000 5000 (fun _ => 0) 1 k.mem = .ok (rout, mout) ∧
      userAccess .store T.root 6000 5000 k.mem = .ok (st, mst) ∧
      (min.denied = false ∧ mld.denied = false ∧ mout.denied = false ∧ mst.denied = false →
        (((rin.1 = 0 ↔ ld ≠ none) ∧ (rout = 0 ↔ st ≠ none)) ↔ ¬SizeGap T 6000 5000)) := by
  obtain ⟨k, T, R, hk, -, -, hok, -⟩ := Kernel.first_spaceOk (n := 6000) (f := fun _ => true)
    (l := [.userinit 1, .schedule 0, .sbrk 0 6000 2]) (by decide +kernel)
  exact ⟨k, T, R, hk, hok, fun hgap => absurd hgap.2.2 (by decide),
    copy_iff_access hok (by decide) (fun _ => 0) fun _ => 0⟩

end Xv6
