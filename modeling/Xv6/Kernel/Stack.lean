import Xv6.Kernel.Args
import Xv6.Kernel.Image

/-!
# The stack of a new program

What `setupStack` puts on the stack of a table without holes: `copyout` to its pages cannot fail, so the
arguments are there, laid out as in `ArgStack`, if and only if they fit.
-/

namespace Xv6

open Function

variable [Layout] {m m' : Mem} {T T' : PageTable} {S : Multiset ℕ} {sz tf b : ℕ} {argv : List Bytes}

/-- A table without holes that the user may write from page `b` on. -/
structure StackPages (T : PageTable) (sz b : ℕ) : Prop where
  full : ∀ v < pagesOf sz, T.leaf v ≠ none
  user : ∀ v, b ≤ v → v < pagesOf sz → ∃ e, T.leaf v = some e ∧ e.has PTE_U = true ∧ e.has PTE_W = true

omit [Layout] in
lemma StackPages.congr (h : StackPages T sz b) (hl : T'.leaf = T.leaf) : StackPages T' sz b where
  full v hv := by
    rw [hl]
    exact h.full v hv
  user v hb hv := by
    rw [hl]
    exact h.user v hb hv

/-- Nothing is left to be mapped on the way. -/
lemma StackPages.faulted (h : StackPages T sz b) (hf : Faulted T.leaf T'.leaf sz 0 UPAGES) :
    T'.leaf = T.leaf := by
  funext v
  rcases hf v with heq | ⟨hnone, -, -, hlt, -⟩
  · exact heq
  · refine absurd hnone (h.full v ?_)
    unfold pagesOf PGSIZE at *
    omega

omit [Layout] in
/-- What was stored, address by address. -/
lemma Stored.byte_eq {d k : ℕ} {src : Bytes} (h : Stored m T m' T' d src 0 k) {a : ℕ}
    (ha : pageOf a < UPAGES) : T'.byte m'.page a = Bytes.blit (T.byte m.page) d src 0 k a := by
  have hsplit : pageOf a * PGSIZE + a % PGSIZE = a := Nat.div_add_mod' ..
  rw [PageTable.byte, h _ ha _ (Nat.mod_lt _ (by decide)), hsplit]
  rfl

namespace Space

/-- `copyout` to the stack. -/
lemma copyout_stack (h : Space m T S) (hT : UserTable T sz tf) (hst : StackPages T sz b) {a len : ℕ}
    (ha : b * PGSIZE ≤ a) (hlen : a + len ≤ sz) (src : Bytes) :
    Returns (Xv6.copyout T.root sz a src len) (fun r m' => ∃ T' : PageTable, T'.root = T.root ∧
      Space m' T' S ∧ Frame m m' S ∧ UserTable T' sz tf ∧ T'.leaf = T.leaf ∧ r = 0 ∧
      ∀ x, pageOf x < UPAGES → T'.byte m'.page x = Bytes.blit (T.byte m.page) a src 0 len x) m := by
  refine (h.copyout hT.size_le hT.noUser src).imp ?_
  rintro r m' ⟨T', k, hr', hs', hf, hft, _, _, hreach, hstored⟩
  refine ⟨T', hr', hs', hf, hT.faulted hft, hst.faulted hft, ?_⟩
  have hr0 : r = 0 := by
    by_contra hne
    obtain ⟨hk, hstop⟩ := hreach.stop hne
    have hpage : pageOf (a + k) < pagesOf sz := pageOf_lt_pagesOf (by omega)
    have hb : b ≤ pageOf (a + k) := by
      unfold pageOf PGSIZE at *
      omega
    obtain ⟨e, he, hU, hW⟩ := hst.user _ hb hpage
    have hmax := mul_lt_maxva (hpage.trans_le (pagesOf_le hT.size_le))
    have hlacks := hstop ⟨(PageTable.readable_of_some he).mpr ⟨hmax, hU⟩, fun e' he' => by
      obtain rfl := Option.some.inj (he.symm.trans he')
      exact hW⟩
    exact hst.full _ hpage hlacks.2
  obtain rfl := hreach.all hr0
  exact ⟨hr0, fun x hx => hstored.byte_eq hx⟩

omit [Layout] in
/-- The stack pointer after a push of `n` bytes. -/
lemma push_aligned {sp n : ℕ} (hsp : sp % 16 = 0) (hn : n ≤ sp) (hlt : sp < 2 ^ 64) :
    sub64 sp n - sub64 sp n % 16 = sp - align16 n := by
  have hsub : sub64 sp n = sp - n := by
    unfold sub64
    omega
  rw [hsub]
  unfold align16
  omega

/-- The strings are pushed as long as they fit, and nothing below the stack is written. -/
lemma pushStrings_layout (argv : List Bytes) {sp : ℕ} {ustack : List ℕ} {m : Mem} {T : PageTable}
    (h : Space m T S) (hT : UserTable T sz tf) (hst : StackPages T sz b) (hb : 0 < b)
    (hsp : sp % 16 = 0) (hlo : b * PGSIZE ≤ sp) (hhi : sp ≤ sz) (hlen : ∀ s ∈ argv, strlen s < PGSIZE) :
    Returns (Xv6.pushStrings T.root sz (b * PGSIZE) argv sp ustack) (fun r m' => ∃ T' : PageTable,
      T'.root = T.root ∧ Space m' T' S ∧ Frame m m' S ∧ UserTable T' sz tf ∧ T'.leaf = T.leaf ∧
      (∀ x < b * PGSIZE, T'.byte m'.page x = T.byte m.page x) ∧
      (r = none ∧ sp < b * PGSIZE + stringBytes argv ∨
       r = some (sp - stringBytes argv, ustack ++ argAddrs sp argv) ∧
        b * PGSIZE + stringBytes argv ≤ sp ∧
        ∀ x, pageOf x < UPAGES → T'.byte m'.page x = pushed argv sp (T.byte m.page) x)) m := by
  have hsz : sz < 2 ^ 64 := lt_of_le_of_lt hT.size_le (by decide)
  have hupages : ∀ x < b * PGSIZE, pageOf x < UPAGES := fun x hx =>
    (pageOf_lt_pagesOf (by omega)).trans_le (pagesOf_le hT.size_le)
  induction argv generalizing sp ustack m T with
  | nil =>
    refine ⟨T, rfl, h, Frame.refl _ _, hT, rfl, fun _ _ => rfl, Or.inr ⟨?_, by simpa using hlo, fun _ _ => rfl⟩⟩
    rw [argAddrs_nil, List.append_nil]
    rfl
  | cons s argv ih =>
    have hs : strlen s < PGSIZE := hlen s List.mem_cons_self
    have hbase : PGSIZE ≤ b * PGSIZE := Nat.le_mul_of_pos_left _ hb
    have hle := le_align16 (strlen s + 1)
    simp only [Returns, Xv6.pushStrings]
    rw [push_aligned hsp (by omega) (by omega)]
    by_cases hbelow : sp - align16 (strlen s + 1) < b * PGSIZE
    · rw [wp_ite_pos hbelow]
      refine ⟨T, rfl, h, Frame.refl _ _, hT, rfl, fun _ _ => rfl, Or.inl ⟨rfl, ?_⟩⟩
      rw [stringBytes_cons]
      omega
    rw [wp_ite_neg hbelow, wp_bind]
    refine (h.copyout_stack hT hst (by omega) (by omega) s).imp ?_
    rintro r m₁ ⟨T₁, hr₁, hs₁, hf₁, hT₁, hl₁, hr, hbyte₁⟩
    have hsp₁ : (sp - align16 (strlen s + 1)) % 16 = 0 := by
      unfold align16
      omega
    rw [hr, wp_ite_neg (by decide), ← hr₁]
    refine (ih hs₁ hT₁ (hst.congr hl₁) hsp₁ (by omega) (by omega)
      fun s' hs' => hlen s' (List.mem_cons_of_mem s hs')).imp ?_
    rintro r₂ m₂ ⟨T₂, hr₂, hs₂, hf₂, hT₂, hl₂, hlow₂, hres⟩
    refine ⟨T₂, hr₂, hs₂, hf₁.trans hf₂, hT₂, hl₂.trans hl₁, fun x hx => ?_, ?_⟩
    · rw [hlow₂ x hx, hbyte₁ x (hupages x hx), Bytes.blit_of_notMem (by omega)]
    · rcases hres with ⟨rfl, hno⟩ | ⟨rfl, hfit, hbyte₂⟩
      · refine Or.inl ⟨rfl, ?_⟩
        rw [stringBytes_cons]
        omega
      · refine Or.inr ⟨?_, ?_, fun x hx => ?_⟩
        · rw [argAddrs_cons, stringBytes_cons, ← Nat.sub_sub, List.append_assoc]
          rfl
        · rw [stringBytes_cons]
          omega
        · rw [hbyte₂ x hx, pushed]
          exact pushed_congr (hbyte₁ x hx)

end Space

/-- What `setupStack` did to user memory, and whether it fails: it does if there is no memory for the
stack or the arguments do not fit. -/
structure StackMade (m : Mem) (T : PageTable) (sz : ℕ) (argv : List Bytes) (r : ℕ × Option ℕ)
    (m' : Mem) (T' : PageTable) : Prop where
  fails : ∃ sz1 m₁, uvmalloc T.root (pgRoundUp sz) (pgRoundUp sz + (USERSTACK + 1) * PGSIZE) PTE_W m =
    .ok (sz1, m₁) ∧ (sz1 = 0 ∨ r.1 = sz1 ∧ (USERSTACK + 1) * PGSIZE ≤ sz1) ∧
    (r.2 = none ↔ sz1 = 0 ∨ ¬ArgsFit argv)
  below : ∀ x < r.1 - USERSTACK * PGSIZE, T'.byte m'.page x = T.byte m.page x
  stack : ∀ sp, r.2 = some sp → ArgStack (T'.byte m'.page) r.1 sp argv
  guard : ∀ sp, r.2 = some sp → ∃ e, T'.leaf (pageOf (r.1 - (USERSTACK + 1) * PGSIZE)) = some e ∧
    e.has PTE_U = false

/-- The pages of the stack, above a table without holes and a guard page. -/
lemma StackPages.of_fresh {T₁ T₂ : PageTable} {e : Pte} (hT : Loaded T sz tf)
    (hfr : Fresh T.leaf T₁.leaf (pagesOf sz) (pagesOf sz + (USERSTACK + 1)) (PTE_R ||| PTE_U ||| PTE_W))
    (hl : T₂.leaf = update T₁.leaf (pagesOf sz) (some e)) :
    StackPages T₂ ((pagesOf sz + (USERSTACK + 1)) * PGSIZE) (pagesOf sz + 1) := by
  rw [← pagesOf_mul (pagesOf sz + (USERSTACK + 1))] at hfr
  constructor
  case full =>
    intro v hv
    rw [hl]
    by_cases hguard : v = pagesOf sz
    · rw [hguard, update_self]
      exact Option.some_ne_none _
    rw [update_of_ne hguard]
    by_cases hlow : pagesOf sz ≤ v
    · obtain ⟨pa, -, he⟩ := hfr.inside v hlow hv
      rw [he]
      exact Option.some_ne_none _
    · rw [hfr.outside v (by omega)]
      exact hT.ne_none (by omega)
  case user =>
    intro v hb hv
    obtain ⟨pa, -, he⟩ := hfr.inside v (by omega) hv
    refine ⟨_, by rw [hl, update_of_ne (by omega), he], ?_, ?_⟩
    · rw [leafEntry_has (by decide)]
      decide
    · rw [leafEntry_has (by decide)]
      decide

/-- Taking the user's access from a page does not change what is in it. -/
lemma SameView.cleared {v : ℕ} {e e' : Pte} (hv : v < UPAGES) (hleaf : T.leaf v = some e)
    (hl : T'.leaf = update T.leaf v (some e')) (hpa : pte2pa e' = pte2pa e)
    (hf : Frame m m' T.userPages) : SameView m T m' T' := by
  intro u hu i _
  by_cases huv : u = v
  · subst huv
    have hl' : T'.leaf u = some e' := by rw [hl, update_self]
    rw [PageTable.view_of_some hl', PageTable.view_of_some hleaf, hpa]
    exact congrFun (hf.on _ (mem_leafPages.mpr ⟨u, Nat.zero_le u, hu, e, hleaf, rfl⟩)) i
  · have hl' : T'.leaf u = T.leaf u := by rw [hl, update_of_ne huv]
    rw [PageTable.view_congr hl', PageTable.view_frame hf hu]

namespace Space

/-- The arguments on the stack of a table that has one. -/
lemma pushArgs (h : Space m T S) (hT : UserTable T sz tf) (hst : StackPages T sz b) (hb : 0 < b)
    (hsz : b * PGSIZE + USERSTACK * PGSIZE = sz) (hargs : ArgsOk argv) :
    Returns (do
      match ← Xv6.pushStrings T.root sz (b * PGSIZE) argv sz [] with
      | none => return (sz, none)
      | some (sp, ustack) =>
        let sp := sub64 sp ((ustack.length + 1) * 8)
        let sp := sp - sp % 16
        if sp < b * PGSIZE then return (sz, none)
        if (← Xv6.copyout T.root sz sp (wordsBytes (ustack ++ [0])) ((ustack.length + 1) * 8)) < 0 then
          return (sz, none)
        return (sz, some sp)) (fun r m' => ∃ T' : PageTable, T'.root = T.root ∧ Space m' T' S ∧
      Frame m m' S ∧ UserTable T' sz tf ∧ T'.leaf = T.leaf ∧ r.1 = sz ∧
      (∀ x < b * PGSIZE, T'.byte m'.page x = T.byte m.page x) ∧
      (r.2 = none ↔ ¬ArgsFit argv) ∧ ∀ sp, r.2 = some sp → ArgStack (T'.byte m'.page) sz sp argv) m := by
  have hlt : sz < 2 ^ 64 := lt_of_le_of_lt hT.size_le (by decide)
  have hupages : ∀ x < sz, pageOf x < UPAGES := fun x hx =>
    (pageOf_lt_pagesOf hx).trans_le (pagesOf_le hT.size_le)
  have hmod : sz % 16 = 0 := by
    rw [← hsz, ← Nat.add_mul]
    exact Nat.mod_eq_zero_of_dvd ((show 16 ∣ PGSIZE by decide).mul_left _)
  have hone : PGSIZE ≤ b * PGSIZE := Nat.le_mul_of_pos_left _ hb
  have hstr := stringBytes_mod argv
  have hcount : (argv.length + 1) * 8 ≤ PGSIZE := by
    have := hargs.count
    unfold MAXARG at this
    exact le_trans (show (argv.length + 1) * 8 ≤ 32 * 8 by omega) (by decide)
  simp only [Returns, wp_bind]
  refine (h.pushStrings_layout argv hT hst hb hmod (by omega) le_rfl hargs.string).imp ?_
  rintro r₁ m₁ ⟨T₁, hr₁, hs₁, hf₁, hT₁, hl₁, hlow₁, hres⟩
  rcases hres with ⟨rfl, hno⟩ | ⟨rfl, hfit, hbyte₁⟩
  · refine ⟨T₁, hr₁, hs₁, hf₁, hT₁, hl₁, rfl, hlow₁, iff_of_true rfl ?_, by simp⟩
    unfold ArgsFit stackBytes
    omega
  have hlen : (argAddrs sz argv).length = argv.length := by simp [argAddrs]
  have hle := le_align16 ((argv.length + 1) * 8)
  have hpush : sub64 (sz - stringBytes argv) ((argv.length + 1) * 8) -
      sub64 (sz - stringBytes argv) ((argv.length + 1) * 8) % 16 = sz - stackBytes argv := by
    rw [push_aligned (by omega) (by omega) (by omega), stackBytes, Nat.sub_sub]
  simp only [List.nil_append, hlen, hpush]
  by_cases hbelow : sz - stackBytes argv < b * PGSIZE
  · rw [wp_ite_pos hbelow]
    refine ⟨T₁, hr₁, hs₁, hf₁, hT₁, hl₁, rfl, hlow₁, iff_of_true rfl ?_, by simp⟩
    unfold ArgsFit
    omega
  have hargsFit : ArgsFit argv := by
    unfold ArgsFit
    omega
  have hbytes : stackBytes argv = stringBytes argv + align16 ((argv.length + 1) * 8) := rfl
  rw [wp_ite_neg hbelow, wp_bind, ← hr₁]
  refine (hs₁.copyout_stack hT₁ (hst.congr hl₁) (by omega) (by omega) _).imp ?_
  rintro r₂ m₂ ⟨T₂, hr₂, hs₂, hf₂, hT₂, hl₂, hr, hbyte₂⟩
  rw [hr, wp_ite_neg (by decide)]
  refine ⟨T₂, hr₂, hs₂, hf₁.trans hf₂, hT₂, hl₂.trans hl₁, rfl, fun x hx => ?_,
    iff_of_false (Option.some_ne_none _) (not_not.mpr hargsFit), fun sp hsp => ?_⟩
  · rw [hbyte₂ x (hupages x (by omega)), Bytes.blit_of_notMem (by omega), hlow₁ x hx]
  · obtain rfl := Option.some.inj hsp
    refine ArgStack.of_pushed (f := T.byte m.page) hmod (by omega) hargsFit hargs.string fun x hx => ?_
    rw [hbyte₂ x (hupages x hx)]
    unfold Bytes.blit
    rw [hbyte₁ x (hupages x hx)]

/-- The stack is made above a table without holes, with the arguments on it. -/
lemma setupStack_layout (h : Space m T S) (hT : Loaded T sz tf) (hargs : ArgsOk argv) :
    Returns (Xv6.setupStack T.root sz argv) (fun r m' => ∃ T' : PageTable, T'.root = T.root ∧
      Space m' T' S ∧ Frame m m' S ∧ UserTable T' r.1 tf ∧ StackMade m T sz argv r m' T') m := by
  have hround := pgRoundUp_eq hT.size_le
  have hpages : pagesOf (pgRoundUp sz) = pagesOf sz := by rw [hround, pagesOf_mul]
  have hmax : pgRoundUp sz ≤ TRAPFRAME := by
    rw [hround, ← UPAGES_mul]
    exact Nat.mul_le_mul_right _ (pagesOf_le hT.size_le)
  have hle : sz ≤ pgRoundUp sz := by
    rw [hround]
    unfold pagesOf PGSIZE
    omega
  have hT' : UserTable T (pgRoundUp sz) tf := hT.toUserTable.grow hle hmax
  simp only [Returns, Xv6.setupStack, wp_bind]
  refine (h.uvmalloc _ (by decide) hmax (fun u h₁ h₂ => hT'.eq_none h₁ h₂)
    (Or.inr fun u hu => hT.ne_none (hpages ▸ hu))).with_run.imp ?_
  rintro sz1 m₁ ⟨⟨T₁, hr₁, hs₁, hf₁, hv₁, hres⟩, hrun⟩
  have hf₁' := hf₁.mono (Multiset.le_add_left S _)
  rcases hres with ⟨hlt, -⟩ | ⟨-, rfl, hl⟩ | ⟨hle₁, hsz1, hmax₁, hfr⟩
  · omega
  · rw [wp_ite_pos rfl]
    refine ⟨T₁, hr₁, hs₁, hf₁', hT'.congr hl, ⟨0, m₁, hrun, Or.inl rfl, by simp⟩, fun x hx => ?_, by simp, by simp⟩
    refine hv₁.byte ((show pageOf x < pagesOf (pgRoundUp sz) from pageOf_lt_pagesOf ?_).trans_le (pagesOf_le hmax))
    dsimp only at hx
    omega
  -- The new pages are those of the guard and of the stack.
  have hend : pgRoundUp sz + (USERSTACK + 1) * PGSIZE = (pagesOf sz + (USERSTACK + 1)) * PGSIZE := by
    rw [hround, ← Nat.add_mul]
  have hbase : (pagesOf sz + (USERSTACK + 1)) * PGSIZE - USERSTACK * PGSIZE =
      (pagesOf sz + 1) * PGSIZE := by
    rw [← Nat.sub_mul, show pagesOf sz + (USERSTACK + 1) - USERSTACK = pagesOf sz + 1 by omega]
  have hguard : (pagesOf sz + (USERSTACK + 1)) * PGSIZE - (USERSTACK + 1) * PGSIZE =
      pagesOf sz * PGSIZE := by
    rw [← Nat.sub_mul, show pagesOf sz + (USERSTACK + 1) - (USERSTACK + 1) = pagesOf sz by omega]
  rw [hend] at hsz1 hmax₁ hfr hle₁
  have hT₁ := hT'.fresh hle₁ hmax₁ (by decide) (by decide) hfr
  rw [hpages, pagesOf_mul] at hfr
  obtain ⟨pa, -, hleaf⟩ := hfr.inside (pagesOf sz) le_rfl (by omega)
  have hv : pagesOf sz < UPAGES := by
    have := pagesOf_le hmax₁
    rw [pagesOf_mul] at this
    omega
  have hpos : 0 < (pagesOf sz + (USERSTACK + 1)) * PGSIZE := Nat.mul_pos (by omega) (by decide)
  subst hsz1
  rw [wp_ite_neg hpos.ne', wp_bind, hguard, hbase, ← hr₁]
  refine (hs₁.uvmclear hv hleaf (hT₁.user _ _ hv hleaf).2.clear.2).imp ?_
  rintro _ m₂ ⟨T₂, hr₂, hs₂, hf₂, hl₂⟩
  have hf₂' := hf₁'.trans (hf₂.mono (Multiset.le_add_left S _))
  have hT₂ := hT₁.cleared hv hleaf hl₂
  have hst₂ := StackPages.of_fresh hT hfr hl₂
  have hview : SameView m T m₂ T₂ := hv₁.trans (SameView.cleared hv hleaf hl₂
    (hT₁.user _ _ hv hleaf).2.clear.2 (hf₂.mono (Multiset.le_add_right _ _)))
  have hsum : (pagesOf sz + 1) * PGSIZE + USERSTACK * PGSIZE =
      (pagesOf sz + (USERSTACK + 1)) * PGSIZE := by
    rw [← Nat.add_mul, show pagesOf sz + 1 + USERSTACK = pagesOf sz + (USERSTACK + 1) by omega]
  have hstack := hs₂.pushArgs hT₂ hst₂ (Nat.succ_pos _) hsum hargs
  rw [hr₂] at hstack
  refine hstack.imp ?_
  rintro r m₃ ⟨T₃, hr₃, hs₃, hf₃, hT₃, hl₃, hr, hlow, hnone, hsome⟩
  refine ⟨T₃, hr₃, hs₃, hf₂'.trans hf₃, hr ▸ hT₃, ⟨_, m₁, hrun, Or.inr ⟨hr, ?_⟩, ?_⟩, fun x hx => ?_,
    fun sp hsp => ?_, fun sp hsp => ?_⟩
  · exact Nat.mul_le_mul_right _ (by omega)
  · rw [hnone]
    exact ⟨Or.inr, fun hor => hor.resolve_left hpos.ne'⟩
  · rw [hr, hbase] at hx
    rw [hlow x hx]
    exact hview.byte ((show pageOf x < pagesOf ((pagesOf sz + (USERSTACK + 1)) * PGSIZE) from
      pageOf_lt_pagesOf (by omega)).trans_le (pagesOf_le hmax₁))
  · rw [hr]
    exact hsome sp hsp
  · refine ⟨_, by rw [hr, hguard, pageOf_mul, hl₃, hl₂, update_self], ?_⟩
    rw [Pte.has, BitVec.and_assoc, show ~~~PTE_U &&& PTE_U = 0#64 by decide, BitVec.and_zero]
    rfl

end Space

end Xv6
