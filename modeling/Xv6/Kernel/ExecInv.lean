import Xv6.Kernel.Calls
import Xv6.Kernel.Stack

/-!
# `exec` keeps the invariant

`kexec` builds a second page table beside that of the process; at the end one of the two is freed.
-/

namespace Xv6

open Finset

variable [Layout] {z : Prop} {k : Kernel} {tab : ℕ → Option PageTable} {P : Finset ℕ}
  {H G R : Multiset ℕ} {p : ℕ} {m m' : Mem} {proc : ℕ → Proc} {T : PageTable}

/-! ## A second table -/

/-- Beside the tables of the processes there is the table `T` with its user pages. -/
structure SpareTable (m : Mem) (proc : ℕ → Proc) (tab : ℕ → Option PageTable) (T : PageTable)
    (R : Multiset ℕ) : Prop where
  mem : MemInv m proc tab (T.tablePages + (T.userPages + R))
  repr : T.Repr m.page

namespace SpareTable

/-- A table that was built with the processes' pages around it. -/
lemma of_space (h : MemInv m proc tab R)
    (hs : Space m' T (∑ p ∈ range NPROC, slotPages (proc p) (tab p) + R))
    (hf : Frame m m' (∑ p ∈ range NPROC, slotPages (proc p) (tab p) + R)) :
    SpareTable m' proc tab T R where
  mem := by
    refine h.change ?_ (hf.mono (Multiset.le_add_right _ _))
    have hused := hs.used
    convert hused using 1
    abel
  repr := hs.repr

section

variable (h : SpareTable m proc tab T R)
include h

lemma writeTrapframe (hp : p < NPROC) (hst : (proc p).state ≠ .unused) (b : Bytes) :
    SpareTable (m.write (proc p).trapframe b) proc tab T R where
  mem := h.mem.writeTrapframe hp hst b
  repr := by
    obtain ⟨T₀, hT₀, -⟩ := h.mem.tab_isSome hp hst
    refine h.repr.congr fun pg hpg => Mem.write_page_of_ne b fun heq => ?_
    have hnd := (h.mem.focus hp hT₀).used.nodup
    rw [Multiset.add_cons, Multiset.add_cons, Multiset.nodup_cons] at hnd
    exact hnd.1 (by simp [← heq, hpg])

/-- The trapframe of a process is none of the user pages of the table. -/
lemma trapframe_notMem (hp : p < NPROC)
    (hst : (proc p).state ≠ .unused) : IsPhys (proc p).trapframe ∧ (proc p).trapframe ∉ T.userPages := by
  obtain ⟨T₀, hT₀, -⟩ := h.mem.tab_isSome hp hst
  have hused := (h.mem.focus hp hT₀).used
  have hnd := hused.nodup
  rw [Multiset.add_cons, Multiset.add_cons, Multiset.nodup_cons] at hnd
  exact ⟨hused.isPhys (by simp), fun hmem => hnd.1 (by simp [hmem])⟩

/-- The process changes over to the other table, and its old one is freed. -/
lemma swap {T₀ : PageTable} {q : Proc} {sz : ℕ} (hp : p < NPROC)
    (hT₀ : tab p = some T₀) (hu₀ : UserTable T₀ sz (proc p).trapframe)
    (htf : q.trapframe = (proc p).trapframe) (hq : SlotTable q (some T)) :
    Returns (procFreepagetable T₀.root sz) (fun _ m' =>
      MemInv m' (Function.update proc p q) (Function.update tab p (some T)) R ∧
      Frame m m' ((proc p).trapframe ::ₘ T.userPages)) m := by
  refine ((h.mem.focus hp hT₀).procFreepagetable hu₀).imp ?_
  rintro _ m' ⟨hused, hf⟩
  refine ⟨?_, hf.mono ?_⟩
  swap
  · refine (Multiset.cons_le_cons_iff _).mpr (le_trans ?_ (Multiset.le_add_left _ _))
    exact (Multiset.le_add_right _ _).trans (Multiset.le_add_left _ _)
  have hrest : restPages proc tab p ≤ (proc p).trapframe ::ₘ (restPages proc tab p +
      (T.tablePages + (T.userPages + R))) :=
    (Multiset.le_add_right _ _).trans (Multiset.le_cons_self _ _)
  have htab : T.tablePages ≤ (proc p).trapframe ::ₘ (restPages proc tab p +
      (T.tablePages + (T.userPages + R))) :=
    ((Multiset.le_add_right _ _).trans (Multiset.le_add_left _ _)).trans (Multiset.le_cons_self _ _)
  refine h.mem.put hp hq (fun T' hT' => ?_) ?_ (hf.mono hrest)
  · obtain rfl := Option.some.inj hT'
    exact h.repr.frame hf htab
  · rw [slotPages, htf]
    rw [← Multiset.singleton_add] at hused
    convert hused using 1
    abel

end

end SpareTable

/-- What `kexec` does before it makes the stack: the new table and the size of the program, unless it
fails. -/
def execImage (trapframe : ℕ) : Option ExecFile → MemM (Option (ℕ × ℕ))
  | none => return none
  | some ip => do
    let elf := ip.bytes 0
    if ip.readi 0 Elfhdr.size ≠ Elfhdr.size then return none
    if Elfhdr.magic elf ≠ ELF_MAGIC then return none
    let pagetable ← procPagetable trapframe
    if pagetable = 0 then return none
    match ← loadProgram pagetable ip (Elfhdr.phnum elf).toNat ((Elfhdr.phoff elf).setWidth 32) 0 with
    | (_, false) => return none
    | (sz, true) => return some (pagetable, sz)

namespace Kernel

/-- The process `p` has changed over to the table `T` of `sz` bytes, with what user memory was in `m`,
and with the stack pointer `sp`. -/
structure Committed (k : Kernel) (p sz sp : ℕ) (m : Mem) (T : PageTable) (k' : Kernel) : Prop where
  size : (k'.proc p).sz = sz
  root : (k'.proc p).pagetable = T.root
  trapframe : (k'.proc p).trapframe = (k.proc p).trapframe
  space : ∃ R, Space k'.mem T R ∧ UserTable T sz (k.proc p).trapframe
  byte : ∀ a, pageOf a < UPAGES → T.byte k'.mem.page a = T.byte m.page a
  a1 : (k'.mem.page (k.proc p).trapframe).get64 120 = BitVec.ofNat 64 sp
  sp : (k'.mem.page (k.proc p).trapframe).get64 48 = BitVec.ofNat 64 sp

/-- What `kexec` returns and has done, from what its parts return and have done. -/
def Executed (k : Kernel) (p : ℕ) (file : Option ExecFile) (argv : List Bytes) (r : ℤ) (k' : Kernel) :
    Prop :=
  ∃ o m₁, execImage (k.proc p).trapframe file k.mem = .ok (o, m₁) ∧
    (o = none ∧ r = -1 ∨ ∃ T₁ sz₁ q m₂ T₂, o = some (PageTable.root T₁, sz₁) ∧
      (∃ S, Space m₁ T₁ S) ∧ StackMade m₁ T₁ sz₁ argv q m₂ T₂ ∧ (q.2 = none ∧ r = -1 ∨
        ∃ sp, q.2 = some sp ∧ r = argv.length ∧ Committed k p q.1 sp m₂ T₂ k'))

section

variable (h : KernelInv z k tab P H G)
include h

/-- **`kexec`** gives the process a new memory or leaves it as it was; in both cases no page is
lost. -/
lemma kexec_spec (hp : p < NPROC) (hst : (k.proc p).state ≠ .unused) (file : Option ExecFile)
    {argv : List Bytes} (hargs : ArgsOk argv) :
    Returns (kexec p file argv) (fun r k' => Good z H G p k' ∧ Executed k p file argv r k') k := by
  have hgood : Good z H G p k := ⟨⟨tab, P, h⟩, hst⟩
  cases file with
  | none => exact ⟨hgood, none, k.mem, rfl, Or.inl ⟨rfl, rfl⟩⟩
  | some ip =>
    obtain ⟨T₀, hT₀, hpt, hroot₀, hu₀⟩ := h.mem.tab_isSome hp hst
    -- The prefix runs as the same part of `kexec` does.
    have himage : ∀ {o m₁}, Returns (execImage (k.proc p).trapframe (some ip))
        (fun o' m' => o' = o ∧ m' = m₁) k.mem →
        execImage (k.proc p).trapframe (some ip) k.mem = .ok (o, m₁) := by
      intro o m₁ hrun
      obtain ⟨o', m', heq, rfl, rfl⟩ := hrun.exists_eq
      exact heq
    simp only [Returns, kexec]
    refine wp_ite.mpr ⟨fun hsize => ⟨hgood, none, k.mem, himage ?_, Or.inl ⟨rfl, rfl⟩⟩, fun hsize => ?_⟩
    · rw [Returns, execImage]
      exact (wp_ite_pos hsize).mpr ⟨rfl, rfl⟩
    refine wp_ite.mpr ⟨fun hmagic => ⟨hgood, none, k.mem, himage ?_, Or.inl ⟨rfl, rfl⟩⟩, fun hmagic => ?_⟩
    · rw [Returns, execImage, wp_ite_neg hsize]
      exact (wp_ite_pos hmagic).mpr ⟨rfl, rfl⟩
    simp only [wp_bind, wp_get, wp_onMem]
    refine h.mem.used.procPagetable.with_run.imp ?_
    rintro pt m₁ ⟨⟨hf₁, hres⟩, hrun₁⟩
    have himage₁ : ∀ {o m₂}, Returns (do
          if pt = 0 then return none
          match ← loadProgram pt ip (Elfhdr.phnum (ip.bytes 0)).toNat
              ((Elfhdr.phoff (ip.bytes 0)).setWidth 32) 0 with
          | (_, false) => return none
          | (sz, true) => return some (pt, sz)) (fun o' m' => o' = o ∧ m' = m₂) m₁ →
        execImage (k.proc p).trapframe (some ip) k.mem = .ok (o, m₂) := by
      intro o m₂ hrest
      refine himage ?_
      rw [Returns, execImage, wp_ite_neg hsize, wp_ite_neg hmagic, wp_bind]
      exact wp_of_eq_ok hrun₁ hrest
    rcases hres with ⟨rfl, hused₁⟩ | ⟨hpt₁, T₁, rfl, hs₁, hu₁⟩
    · rw [wp_ite_pos rfl]
      refine ⟨⟨⟨tab, P, h.setMem (h.mem.change hused₁ (hf₁.mono (Multiset.le_add_right _ _)))⟩, hst⟩,
        none, m₁, himage₁ ?_, Or.inl ⟨rfl, rfl⟩⟩
      exact (wp_ite_pos rfl).mpr ⟨rfl, rfl⟩
    -- Whenever the new table is given up the memory is as before.
    have hbad : ∀ {m' : Mem} {T' : PageTable} {sz : ℕ}, T'.root = T₁.root →
        Space m' T' (∑ i ∈ range NPROC, slotPages (k.proc i) (tab i) + (P.val + G)) →
        Frame k.mem m' (∑ i ∈ range NPROC, slotPages (k.proc i) (tab i) + (P.val + G)) →
        UserTable T' sz (k.proc p).trapframe →
        wp (do onMem (procFreepagetable T₁.root sz); return (-1 : ℤ))
          (fun r k' => Good z H G p k' ∧ r = -1) (fun _ => False) { k with mem := m' } := by
      intro m' T' sz hr hs hf hu
      simp only [wp_bind, wp_onMem, ← hr]
      refine (hs.procFreepagetable hu).imp ?_
      rintro _ m'' ⟨hused, hf'⟩
      refine ⟨⟨⟨tab, P, h.setMem ?_⟩, hst⟩, rfl⟩
      exact h.mem.change hused ((hf.trans hf').mono (Multiset.le_add_right _ _))
    have hload : Loaded T₁ 0 (k.proc p).trapframe :=
      ⟨hu₁, fun u hu => by simp [pagesOf, PGSIZE] at hu⟩
    rw [wp_ite_neg hpt₁]
    simp only [wp_bind, wp_onMem]
    refine (hs₁.loadProgram _ hload).with_run.imp ?_
    rintro r m₂ ⟨⟨T₂, hr₂, hs₂, hf₂, hT₂⟩, hrun₂⟩
    obtain ⟨sz₂, ok⟩ := r
    have hf₂' := hf₁.trans hf₂
    cases ok with
    | false =>
      refine (hbad hr₂ hs₂ hf₂' hT₂.toUserTable).imp ?_
      rintro r k' ⟨hk', hr⟩
      refine ⟨hk', none, m₂, himage₁ ?_, Or.inl ⟨rfl, hr⟩⟩
      rw [Returns, wp_ite_neg hpt₁, wp_bind]
      exact wp_of_eq_ok hrun₂ ⟨rfl, rfl⟩
    | true =>
      have himage₂ : execImage (k.proc p).trapframe (some ip) k.mem = .ok (some (T₂.root, sz₂), m₂) := by
        refine himage₁ ?_
        rw [Returns, wp_ite_neg hpt₁, wp_bind]
        exact wp_of_eq_ok hrun₂ ⟨by rw [hr₂], rfl⟩
      simp only [wp_bind, wp_onMem, ← hr₂]
      refine (hs₂.setupStack_layout hT₂ hargs).imp ?_
      rintro r m₃ ⟨T₃, hr₃, hs₃, hf₃, hT₃, hX⟩
      obtain ⟨sz₃, osp⟩ := r
      have hf₃' := hf₂'.trans hf₃
      cases osp with
      | none =>
        have hb := hbad (hr₃.trans hr₂) hs₃ hf₃' hT₃
        rw [← hr₂] at hb
        refine hb.imp ?_
        rintro r k' ⟨hk', hr⟩
        exact ⟨hk', _, m₂, himage₂,
          Or.inr ⟨T₂, sz₂, _, m₃, T₃, rfl, ⟨_, hs₂⟩, hX, Or.inl ⟨rfl, hr⟩⟩⟩
      | some sp =>
        simp only [setTrapframe, wp_bind, wp_get, wp_onMem, wp_modify, wp_setProc, wp_pure,
          Function.update_self]
        have hsp₀ := SpareTable.of_space h.mem hs₃ hf₃'
        rw [← hroot₀]
        refine ((((hsp₀.writeTrapframe hp hst _).writeTrapframe hp hst _).writeTrapframe hp hst _).swap
          hp hT₀ hu₀ (q := { k.proc p with pagetable := T₂.root, sz := sz₃ }) rfl
          ⟨hst, by rw [hr₂]; exact hpt₁, hr₃, hT₃⟩).imp ?_
        rintro _ m₄ ⟨hm₄, hf₄⟩
        refine ⟨⟨⟨_, P, h.set ⟨fun hu => absurd hu hst, fun hz => (h.slot p hp).zombie hz⟩ rfl hm₄⟩, ?_⟩,
          _, m₂, himage₂, Or.inr ⟨T₂, sz₂, _, m₃, T₃, rfl, ⟨_, hs₂⟩, hX, Or.inr ⟨sp, rfl, rfl, ?_⟩⟩⟩
        · simpa using hst
        · refine ⟨by simp, by simp [hr₃], by simp, ⟨_, hm₄.focus hp (Function.update_self ..), hT₃⟩,
            fun a ha => ?_, ?_, ?_⟩
          · obtain ⟨hphys, hnot⟩ := hsp₀.trapframe_notMem hp hst
            have hwrite : ∀ (m : Mem) b, Frame m (m.write (k.proc p).trapframe b) T₃.userPages :=
              fun _ b => .write hphys hnot b
            rw [PageTable.byte, PageTable.byte,
              PageTable.view_frame (hf₄.mono (Multiset.le_cons_self _ _)) ha,
              PageTable.view_frame (hwrite _ _) ha, PageTable.view_frame (hwrite _ _) ha,
              PageTable.view_frame (hwrite _ _) ha]
          · dsimp only
            rw [hf₄.on _ (Multiset.mem_cons_self _ _)]
            simp only [Mem.write_page_self]
            rw [Bytes.get64_put64_of_disjoint (by decide), Bytes.get64_put64_of_disjoint (by decide),
              Bytes.get64_put64]
          · dsimp only
            rw [hf₄.on _ (Multiset.mem_cons_self _ _)]
            simp only [Mem.write_page_self]
            rw [Bytes.get64_put64]

/-! ## The arguments -/

lemma fetchaddr_spec (hp : p < NPROC) (hst : (k.proc p).state ≠ .unused) (addr : ℕ) :
    Returns (fetchaddr p addr) (fun _ k' => ∃ m' tab', k' = { k with mem := m' } ∧
      Frame k.mem m' (P.val + G) ∧ KernelInv z k' tab' P H G) k := by
  simp only [Returns, fetchaddr, wp_bind, wp_get]
  refine wp_ite.mpr ⟨fun _ => ⟨k.mem, tab, rfl, Frame.refl _ _, h⟩, fun _ => ?_⟩
  simp only [wp_bind, wp_onMem]
  refine (copyin_spec h hp hst _ _ _).imp ?_
  rintro r m₁ ⟨hf₁, tab₁, h₁⟩
  exact wp_ite.mpr ⟨fun _ => ⟨m₁, tab₁, rfl, hf₁, h₁⟩, fun _ => ⟨m₁, tab₁, rfl, hf₁, h₁⟩⟩

/-- A string that is fetched ends in the buffer. -/
lemma fetchstr_spec (hp : p < NPROC)
    (hst : (k.proc p).state ≠ .unused) (addr : ℕ) (buf : Bytes) (max : ℕ) :
    Returns (fetchstr p addr buf max) (fun r k' => ∃ m' tab', k' = { k with mem := m' } ∧
      Frame k.mem m' (P.val + G) ∧ KernelInv z k' tab' P H G ∧
      (0 ≤ r.1 → strlenFrom r.2 max 0 < max)) k := by
  simp only [Returns, fetchstr, wp_bind, wp_get, wp_onMem]
  refine (copyinstr_spec h hp hst _ _ _).imp ?_
  rintro r m₁ ⟨hlen, hf₁, tab₁, h₁⟩
  exact wp_ite.mpr ⟨fun _ => ⟨m₁, tab₁, rfl, hf₁, h₁, by simp⟩,
    fun hge => ⟨m₁, tab₁, rfl, hf₁, h₁, fun _ => hlen (not_lt.mp hge)⟩⟩

end

/-- The pages `argv` hold strings. -/
def Strings (m : Mem) (argv : List ℕ) : Prop := ∀ pg ∈ argv, strlen (m.page pg) < PGSIZE

lemma Strings.frame {argv : List ℕ} (h : Strings m argv)
    (hf : Frame m m' (P.val + ((argv : Multiset ℕ) + G))) : Strings m' argv := by
  intro pg hpg
  rw [hf.on pg (by simp [hpg])]
  exact h pg hpg

omit [Layout] in
lemma Strings.snoc {argv : List ℕ} {page : ℕ} {b : Bytes} (h : Strings m argv) (hnot : page ∉ argv)
    (hb : strlen b < PGSIZE) : Strings (m.write page b) (argv ++ [page]) := by
  intro pg hpg
  rcases List.mem_append.mp hpg with hmem | hmem
  · rw [Mem.write_page_of_ne b (ne_of_mem_of_not_mem hmem hnot)]
    exact h pg hmem
  · rw [List.mem_singleton.mp hmem, Mem.write_page_self]
    exact hb

/-- The pages of the arguments are held until they are freed, and each one holds a string. -/
lemma fetchArgs_spec {uargv : ℕ} (hp : p < NPROC) (n : ℕ) {i : ℕ} {argv : List ℕ} {k : Kernel}
    {tab : ℕ → Option PageTable} (h : KernelInv z k tab P H ((argv : Multiset ℕ) + G))
    (hst : (k.proc p).state ≠ .unused) (hargs : Strings k.mem argv) (hn : argv.length + n = MAXARG) :
    Returns (fetchArgs p uargv n i argv) (fun r k' => ∃ m' tab', k' = { k with mem := m' } ∧
      KernelInv z k' tab' P H ((r.1 : Multiset ℕ) + G) ∧
      (r.2 = true → ArgsOk (r.1.map k'.mem.page))) k := by
  induction n generalizing i argv k tab with
  | zero => exact ⟨k.mem, tab, rfl, h, by simp⟩
  | succ n ih =>
    simp only [Returns, fetchArgs, wp_bind]
    refine (fetchaddr_spec h hp hst _).imp ?_
    rintro r k₁ ⟨m₁, tab₁, hk₁, hf₁, h₁⟩
    subst hk₁
    have hargs₁ := hargs.frame hf₁
    cases r with
    | none => exact ⟨m₁, tab₁, rfl, h₁, by simp⟩
    | some uarg =>
      refine wp_ite.mpr ⟨fun _ => ⟨m₁, tab₁, rfl, h₁, fun _ => ⟨?_, fun s hs => ?_⟩⟩, fun _ => ?_⟩
      · rw [List.length_map]
        dsimp only
        omega
      · obtain ⟨pg, hpg, rfl⟩ := List.mem_map.mp hs
        exact hargs₁ pg hpg
      simp only [wp_bind, wp_onMem]
      refine h₁.mem.kalloc.imp ?_
      rintro page m₂ ⟨hf₂, hres⟩
      rcases hres with ⟨rfl, hm₂⟩ | ⟨hphys, hm₂⟩
      · rw [wp_ite_pos rfl]
        exact ⟨m₂, tab₁, rfl, h₁.setMem hm₂, by simp⟩
      have heq : page ::ₘ (P.val + ((argv : Multiset ℕ) + G)) =
          P.val + (((argv ++ [page] : List ℕ) : Multiset ℕ) + G) := by
        rw [← Multiset.coe_add, Multiset.coe_singleton, ← Multiset.singleton_add]
        abel
      rw [heq] at hm₂
      have h₂ := h₁.setMem hm₂
      have hargs₂ := hargs₁.frame (hf₂.mono (Multiset.le_add_left _ _))
      rw [wp_ite_neg hphys.pos.ne']
      simp only [wp_bind, wp_get]
      refine (fetchstr_spec h₂ hp hst _ _ _).imp ?_
      rintro ⟨r, b⟩ k₃ ⟨m₃, tab₃, hk₃, hf₃, h₃, hstr⟩
      subst hk₃
      simp only [wp_onMem, wp_modify]
      have hargs₃ : Strings m₃ argv := fun pg hpg => by
        rw [hf₃.on pg (by simp [hpg])]
        exact hargs₂ pg hpg
      have h₄ := h₃.setMem (h₃.mem.write (show page ∈ _ by simp) b)
      -- The page is none of those of the arguments before.
      have hnot : page ∉ argv := by
        have hnd := (Multiset.nodup_add.mp h₃.mem.used.nodup).2.1
        have hnd' := (Multiset.nodup_add.mp (Multiset.nodup_add.mp hnd).2.1).1
        exact fun hmem => (List.nodup_append.mp (Multiset.coe_nodup.mp hnd')).2.2 page hmem page
          (by simp) rfl
      refine wp_ite.mpr ⟨fun _ => ⟨_, tab₃, rfl, h₄, by simp⟩, fun hge => ?_⟩
      refine (ih h₄ hst (hargs₃.snoc hnot (hstr (not_lt.mp hge))) ?_).imp ?_
      · rw [List.length_append, List.length_singleton]
        omega
      · rintro r k₅ ⟨m₅, tab₅, hk₅, h₅⟩
        exact ⟨m₅, tab₅, hk₅, h₅⟩

lemma freeArgs_spec (argv : List ℕ) {k : Kernel}
    (h : KernelInv z k tab P H ((argv : Multiset ℕ) + G)) :
    Returns (freeArgs argv) (fun _ k' => KernelInv z k' tab P H G ∧ k'.proc = k.proc) k := by
  induction argv generalizing k with
  | nil =>
    refine ⟨?_, rfl⟩
    simpa using h
  | cons page argv ih =>
    simp only [Returns, freeArgs, wp_bind, wp_onMem]
    have hm := h.mem
    rw [← Multiset.cons_coe, Multiset.cons_add, Multiset.add_cons] at hm
    refine hm.kfree.imp ?_
    rintro _ m₁ ⟨hm₁, _⟩
    exact (ih (h.setMem hm₁)).imp fun _ k' hk' => hk'

lemma sysExec_spec (h : KernelInv z k tab P H G) (hp : p < NPROC)
    (hst : (k.proc p).state ≠ .unused) (path uargv : ℕ) (file : Option ExecFile) :
    Returns (sysExec p path uargv file) (fun _ k' => Good z H G p k') k := by
  simp only [Returns, sysExec, wp_bind]
  refine (fetchstr_spec h hp hst _ _ _).imp ?_
  rintro r k₁ ⟨m₁, tab₁, hk₁, -, h₁, -⟩
  subst hk₁
  refine wp_ite.mpr ⟨fun _ => ⟨⟨tab₁, P, h₁⟩, hst⟩, fun _ => ?_⟩
  rw [wp_bind]
  have h₁' : KernelInv z { k with mem := m₁ } tab₁ P H ((([] : List ℕ) : Multiset ℕ) + G) := by
    simpa using h₁
  refine (fetchArgs_spec hp MAXARG h₁' hst (by simp [Strings]) rfl).imp ?_
  rintro ⟨argv, ok⟩ k₂ ⟨m₂, tab₂, hk₂, h₂, hargs⟩
  subst hk₂
  cases ok with
  | false =>
    simp only [wp_bind]
    refine (freeArgs_spec argv h₂).imp ?_
    rintro _ k₃ ⟨h₃, hp₃⟩
    refine ⟨⟨tab₂, P, h₃⟩, ?_⟩
    rw [hp₃]
    exact hst
  | true =>
    simp only [wp_bind, wp_get]
    refine (kexec_spec h₂ hp hst file (hargs rfl)).imp ?_
    rintro r k₃ ⟨⟨⟨tab₃, P₃, h₃⟩, hst₃⟩, -⟩
    refine (freeArgs_spec argv h₃).imp ?_
    rintro _ k₄ ⟨h₄, hp₄⟩
    refine ⟨⟨tab₃, P₃, h₄⟩, ?_⟩
    rw [hp₄]
    exact hst₃

lemma forkret_spec (h : KernelInv z k tab P H G) (hp : p < NPROC)
    (hst : (k.proc p).state ≠ .unused) (file : Option ExecFile) :
    wp (forkret p file) (fun _ k' => Good z H G p k') (fun e => e = "exec") k := by
  simp only [forkret, wp_bind, wp_get]
  refine wp_ite.mpr ⟨fun _ => ?_, fun _ => ⟨⟨tab, P, h⟩, hst⟩⟩
  simp only [wp_bind, wp_modify]
  have h₁ : KernelInv z { k with first := false } tab P H G := ⟨h.mem, h.slot, h.files⟩
  have hargs : ArgsOk [initPath] := by
    refine ⟨by decide, fun s hs => ?_⟩
    obtain rfl := List.mem_singleton.mp hs
    decide
  refine ((kexec_spec h₁ hp hst file hargs).wp).imp ?_
  rintro r k₂ ⟨⟨⟨tab₂, P₂, h₂⟩, hst₂⟩, -⟩
  refine ((setTrapframe_spec h₂ hp hst₂ _ _).wp).imp fun _ k₃ hk₃ => ?_
  exact wp_ite.mpr ⟨fun _ => rfl, fun _ => hk₃⟩

end Kernel
end Xv6
