import Xv6.Kernel.ExecInv
import Xv6.Kernel.Access

/-!
# Strings of the user

`copyinstr` copies a string from user memory to the kernel, page by page, and `fetchstr` of
`kernel/syscall.c` is the form in which the system calls use it.  A string at an address is the bytes
up to the first NUL, as long as all of them can be read (`StringAt`); a page that the process has not
touched yet is one of zeros.  `copyinstr_exact` says that the copy is that string, and that no page
after it is looked at.
-/

namespace Xv6

open Layout

/-- At the address `a` is a string of `k` bytes: the bytes and the NUL after them can be read (`P`). -/
structure StringAt (P : ℕ → Prop) (byte : ℕ → Byte) (a k : ℕ) : Prop where
  ok : ∀ j ≤ k, P (a + j)
  ne : ∀ j < k, byte (a + j) ≠ 0
  nul : byte (a + k) = 0

section

variable {P Q L : ℕ → Prop} {byte : ℕ → Byte} {a max k n : ℕ} {got : Prop}

/-- A string shorter than `max` is read to its end. -/
lemma Space.ReachesNul.of_stringAt (h : Space.ReachesNul P Q L byte a max got n) (hk : k < max)
    (hs : StringAt (fun b => P (pageOf b) ∧ ¬L (pageOf b)) byte a k) : got ∧ n = k + 1 := by
  by_cases hgot : got
  · obtain ⟨hpos, hnul, hne⟩ := h.nul hgot
    refine ⟨hgot, ?_⟩
    rcases lt_trichotomy (n - 1) k with hlt | heq | hlt
    · exact absurd hnul (hs.ne _ hlt)
    · omega
    · exact absurd hs.nul (hne k hlt)
  · obtain ⟨hne, hstop⟩ := h.stop hgot
    have hnk : n ≤ k := by
      by_contra hlt
      exact hne k (by omega) hs.nul
    obtain ⟨hP, hL⟩ := hs.ok n hnk
    exact absurd (hstop (by omega) hP) hL

lemma Space.ReachesNul.got_iff (h : Space.ReachesNul P Q L byte a max got n) (hQ : ∀ v, Q v → ¬L v) :
    got ↔ ∃ k < max, StringAt (fun b => P (pageOf b) ∧ ¬L (pageOf b)) byte a k := by
  constructor
  · intro hgot
    obtain ⟨hpos, hnul, hne⟩ := h.nul hgot
    have hle := h.le
    refine ⟨n - 1, by omega, fun j hj => ?_, hne, hnul⟩
    exact ⟨h.ok j (by omega), hQ _ (h.mapped j (by omega))⟩
  · rintro ⟨k, hk, hs⟩
    exact (of_stringAt h hk hs).1

end

section

variable [Layout] {m m' : Mem} {T T' : PageTable} {R : Multiset ℕ} {psz : ℕ}

omit [Layout] in
lemma Space.Fetched.eq_le {dst dst' : Bytes} {a k : ℕ} (h : Fetched m T dst dst' a 0 (k + 1)) (i : ℕ) :
    dst' i = if i ≤ k then T.byte m.page (a + i) else dst i := by
  rw [h.eq i]
  simp only [Nat.lt_succ_iff]

/-- The byte at `a` can be read: the user may read its page, and memory has not run out for it. -/
def CanRead (T : PageTable) (psz : ℕ) (m' : Mem) (T' : PageTable) (a : ℕ) : Prop :=
  T.Readable psz (pageOf a) ∧ ¬RanOut T m' T' (pageOf a)

/-- **`copyinstr` copies exactly the string.**  Let memory hold the page table `T`, and let `srcva`
and `max` be anything.
* `copyinstr` returns 0 or -1, and it returns 0 if and only if there is a string of less than `max`
  bytes at `srcva`.
* If there is, then the buffer has its bytes and the NUL, and is otherwise as it was, and every page
  that was looked up is that of a byte of the string or of the NUL.
* If there is none, then no more than the first `max` bytes of the buffer were written.
* User memory is as it was, and the table has changed in no entry but those of pages looked up.
* `fetchstr` returns the length of the string, or -1 if there is none. -/
theorem copyinstr_exact (h : Space m T R) (hpsz : psz ≤ TRAPFRAME) (hU : T.NoUser) (dst : Bytes)
    (srcva max : ℕ) :
    Prod.fst <$> copyinstrVisits T.root psz max dst srcva 0 max =
      copyinstr T.root psz dst srcva max ∧
    Returns (copyinstrVisits T.root psz max dst srcva 0 max) (fun ((r, dst'), visits) m' =>
      ∃ T' : PageTable, T'.root = T.root ∧ Space m' T' R ∧ SameView m T m' T' ∧
      (r = 0 ∨ r = -1) ∧
      (r = 0 ↔ ∃ k < max, StringAt (CanRead T psz m' T') (T.byte m.page) srcva k) ∧
      (∀ k < max, StringAt (CanRead T psz m' T') (T.byte m.page) srcva k →
        (∀ i, dst' i = if i ≤ k then T.byte m.page (srcva + i) else dst i) ∧
        ∀ v ∈ visits, ∃ j ≤ k, v = pageOf (srcva + j)) ∧
      (∀ i, max ≤ i → dst' i = dst i) ∧
      ∀ v, T'.leaf v ≠ T.leaf v → v ∈ visits) m ∧
    ∀ (k : Kernel) (p : ℕ), k.mem = m → (k.proc p).pagetable = T.root → (k.proc p).sz = psz →
      Returns (Kernel.fetchstr p srcva dst max) (fun (r, dst') k' => ∃ (T' : PageTable) (m' : Mem),
        k' = { k with mem := m' } ∧ T'.root = T.root ∧ Space m' T' R ∧
        (∀ n < max, StringAt (CanRead T psz m' T') (T.byte m.page) srcva n →
          r = n ∧ ∀ i, dst' i = if i ≤ n then T.byte m.page (srcva + i) else dst i) ∧
        ((¬∃ n < max, StringAt (CanRead T psz m' T') (T.byte m.page) srcva n) → r = -1)) k := by
  have hran : ∀ (T' : PageTable) (m' : Mem) v, T'.Mapped v → ¬RanOut T m' T' v :=
    fun _ _ _ hm hran => hran.2 hm
  refine ⟨copyinstrVisits_erase .., ?_, fun k p hm hpt hsz => ?_⟩
  · refine (Space.copyinstrVisits hpsz max h hU le_rfl).imp ?_
    rintro r m' ⟨T', n, hroot, hs, _, hview, _, _, hr, hreach, hfe, hvis, hch⟩
    refine ⟨T', hroot, hs, hview, hr, hreach.got_iff (hran T' m'), fun k hk hstr => ?_, fun i hi => ?_,
          hch⟩
    · obtain ⟨hgot, rfl⟩ := hreach.of_stringAt hk hstr
      refine ⟨hfe.eq_le, fun v hv => ?_⟩
      obtain ⟨j, -, hj | ⟨-, hno⟩, rfl⟩ := hvis v hv
      · exact ⟨j, by omega, rfl⟩
      · exact absurd hgot hno
    · have := hreach.le
      rw [hfe.eq i, if_neg (by omega)]
  · subst hm hsz
    simp only [Returns, Kernel.fetchstr, wp_bind, wp_get, Kernel.wp_onMem, hpt]
    refine (h.copyinstr hpsz hU dst).imp ?_
    rintro r m' ⟨T', n, hroot, hs, _, _, _, _, hr, hreach, hfe⟩
    have hiff := hreach.got_iff (hran T' m')
    rcases hr with hr | hr
    · rw [hr, wp_ite_neg (by decide), wp_pure]
      refine ⟨T', m', rfl, hroot, hs, fun i hi hstr => ?_, fun hno => absurd (hiff.mp hr) hno⟩
      obtain ⟨-, rfl⟩ := hreach.of_stringAt hi hstr
      have hlen : strlenFrom r.2 max 0 = i := by
        refine strlenFrom_eq max hi (fun j hj => ?_) ?_
        · rw [Nat.zero_add, hfe.eq_le j, if_pos hj.le]
          exact hstr.ne j hj
        · rw [Nat.zero_add, hfe.eq_le i, if_pos le_rfl]
          exact hstr.nul
      exact ⟨congrArg Nat.cast hlen, hfe.eq_le⟩
    · have hne : ¬r.1 = 0 := by omega
      rw [hr, wp_ite_pos (by decide), wp_pure]
      exact ⟨T', m', rfl, hroot, hs, fun i hi hstr => absurd (hreach.of_stringAt hi hstr).1 hne,
        fun _ => rfl⟩

end

local instance layoutStrings : Layout := smallLayout

/-- A string of four bytes. -/
def fourBytes : Bytes := fun i => if i < 4 then BitVec.ofNat 8 (97 + i) else 0

/-- Before a page boundary `copyout` stores a string of the first process, which has grown to 6000 bytes
without getting a page.  `fetchstr` returns its length and its bytes, from both pages. -/
theorem copyinstr_exact_crossing : ∃ (k : Kernel) (T T' : PageTable) (R : Multiset ℕ) (m : Mem),
    run Kernel.step (Kernel.boot smallMem) [.userinit 1, .schedule 0, .sbrk 0 6000 2] = some k ∧
    T.root = (k.proc 0).pagetable ∧
    copyout T.root 6000 4094 fourBytes 5 k.mem = .ok (0, m) ∧ Space m T' R ∧ T'.NoUser ∧
    (∀ m'' T'', StringAt (CanRead T' 6000 m'' T'') (T'.byte m.page) 4094 4) ∧
    ∀ dst : Bytes, Returns (Kernel.fetchstr 0 4094 dst 128)
      (fun (r, dst') _ => r = 4 ∧ ∀ i ≤ 4, dst' i = fourBytes i) { k with mem := m } := by
  obtain ⟨k, T, R, hk, hsz, hroot, hok, hf⟩ := Kernel.first_spaceOk (n := 6000)
    (l := [.userinit 1, .schedule 0, .sbrk 0 6000 2])
    (f := fun k => endsWith (· = 0) (copyout (k.proc 0).pagetable 6000 4094 fourBytes 5) k.mem)
    (by decide +kernel)
  obtain ⟨r, m, hm, hr, -⟩ := endsWith_iff.mp hf
  obtain rfl : r = 0 := by simpa using hr
  rw [← hroot] at hm
  obtain ⟨T', n, hroot', hs, -, hft, -, -, hreach, hst⟩ :=
    (hok.space.copyout hok.table.size_le hok.table.noUser fourBytes).of_eq_ok hm
  obtain rfl := hreach.all rfl
  have hU := (hok.table.faulted hft).noUser
  have hbyte : ∀ i ≤ 4, T'.byte m.page (4094 + i) = fourBytes i := fun i hi =>
    hst.byte ((hreach.ok i (by omega)).1.lt_UPAGES hok.table.size_le hok.table.noUser) (by omega)
  have hstr : ∀ m'' T'', StringAt (CanRead T' 6000 m'' T'') (T'.byte m.page) 4094 4 := by
    refine fun m'' T'' => ⟨fun j hj => ⟨?_, fun hran => ?_⟩, fun j hj => ?_, ?_⟩
    · exact hft.readable.mpr (hreach.ok j (by omega)).1
    · exact hreach.mapped j (by omega) hran.1.2
    · rw [hbyte j hj.le]
      interval_cases j <;> decide
    · rw [hbyte 4 le_rfl]
      rfl
  refine ⟨k, T, T', R, m, hk, hroot, hm, hs, hU, hstr, fun dst => ?_⟩
  refine ((copyinstr_exact hs hok.table.size_le hU dst 4094 128).2.2 { k with mem := m } 0 rfl
    (hroot'.trans hroot).symm hsz).imp ?_
  rintro r k' ⟨T'', m'', -, -, -, hfetch, -⟩
  obtain ⟨hr, hdst⟩ := hfetch 4 (by decide) (hstr m'' T'')
  refine ⟨hr, fun i hi => ?_⟩
  rw [hdst i, if_pos hi, hbyte i hi]

end Xv6
