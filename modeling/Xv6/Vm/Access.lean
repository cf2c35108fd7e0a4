import Xv6.Vm.Read

/-!
# Loads and stores of the user

What the hardware does with a user's load or store, as far as page tables go: it translates the
address (Sv39), checks the flags of the entry, and raises a page fault if they do not allow the
access.  `usertrap` then calls `vmfault`, and the instruction is tried again if that has mapped a
page; otherwise the process is killed.  The accessed and dirty bits are left out, and so are
instruction fetches.
-/

namespace Xv6

open Function

/-- The valid leaf that the hardware finds for an address.  Bits 63–39 must all be equal to bit
38. -/
def Mem.translate (m : Mem) (root va : ℕ) : Option Pte :=
  if va < 2 ^ 38 ∨ 2 ^ 64 - 2 ^ 38 ≤ va then m.leafAt root (va / PGSIZE % 2 ^ 27) else none

inductive Access
  | load
  | store
  deriving DecidableEq, Repr

/-- Whether an entry allows an access in user mode. -/
def Access.allowed : Access → Pte → Bool
  | .load, pte => pte.has PTE_U && pte.has PTE_R
  | .store, pte => pte.has PTE_U && pte.has PTE_R && pte.has PTE_W

/-- The page that an access goes to, or `none` if it faults. -/
def Mem.reach (m : Mem) (root : ℕ) (a : Access) (va : ℕ) : Option ℕ :=
  ((m.translate root va).filter a.allowed).map pte2pa

variable [Layout]

/-- An access to the address `va`: the page it goes to, if need be after a page fault, or `none` if
the process is killed. -/
def userAccess (a : Access) (pagetable psz va : ℕ) : MemM (Option ℕ) := do
  match (← get).reach pagetable a va with
  | some pa => return some pa
  | none =>
    -- in `usertrap`
    if (← vmfault pagetable psz va) = 0 then return none
    return (← get).reach pagetable a va

/-- A store of one byte; whether it completes. -/
def userStore (pagetable psz va : ℕ) (b : Byte) : MemM Bool := do
  match ← userAccess .store pagetable psz va with
  | none => return false
  | some pa =>
    modify fun m => m.write pa (update (m.page pa) (va % PGSIZE) b)
    return true

/-! ## When an access completes -/

/-- The user may make the access, or `vmfault` will map the page. -/
def PageTable.Accessible (T : PageTable) (a : Access) (psz va : ℕ) : Prop :=
  match T.leaf (pageOf va) with
  | none => va < psz
  | some e => a.allowed e = true

variable {m m' : Mem} {T T' : PageTable} {R : Multiset ℕ} {a : Access} {psz va tf : ℕ} {e : Pte}

omit [Layout] in
lemma PageTable.accessible_of_none (h : T.leaf (pageOf va) = none) :
    T.Accessible a psz va ↔ va < psz := by rw [Accessible, h]

omit [Layout] in
lemma PageTable.accessible_of_some (h : T.leaf (pageOf va) = some e) :
    T.Accessible a psz va ↔ a.allowed e = true := by rw [Accessible, h]

omit [Layout] in
lemma allowed_faultPerm (pa : ℕ) : a.allowed (leafEntry pa faultPerm) = true := by
  have hhas : ∀ g : Pte, IsFlags g → (leafEntry pa faultPerm).has g =
      Pte.has (faultPerm ||| PTE_V) g := fun g hg => leafEntry_has hg
  cases a <;> rw [Access.allowed] <;>
    simp only [hhas PTE_U (by decide), hhas PTE_R (by decide), hhas PTE_W (by decide)] <;> decide

/-- There is nothing in the table above the trampoline. -/
private lemma leaf_high (hT : UserTable T psz tf) {v : ℕ} (hv : 2 ^ 26 ≤ v) :
    T.leaf v = none := by
  refine hT.top v (lt_of_lt_of_le ?_ hv)
  decide

/-- The hardware sees the table of the process. -/
lemma Space.translate (h : Space m T R) (hT : UserTable T psz tf) (hva : va < 2 ^ 64) :
    m.translate T.root va = T.leaf (pageOf va) := by
  have hleaf : ∀ v, m.leafAt T.root v = T.leaf v := h.repr.leafAt fun _ _ hx => h.isPhys hx
  unfold Mem.translate
  by_cases hlow : va < 2 ^ 38
  · rw [if_pos (Or.inl hlow), hleaf, pageOf, Nat.mod_eq_of_lt]
    unfold PGSIZE
    omega
  · have hnone : T.leaf (pageOf va) = none := leaf_high hT (by unfold pageOf PGSIZE; omega)
    split
    · next hc =>
      rw [hleaf, hnone]
      refine leaf_high hT ?_
      unfold PGSIZE
      omega
    · exact hnone.symm

lemma Space.reach (h : Space m T R) (hT : UserTable T psz tf) (hva : va < 2 ^ 64) :
    m.reach T.root a va = ((T.leaf (pageOf va)).filter a.allowed).map pte2pa := by
  rw [Mem.reach, h.translate hT hva]

/-- What is allowed to the user is user memory. -/
lemma UserTable.lt_of_allowed (hT : UserTable T psz tf) (he : T.leaf (pageOf va) = some e)
    (ha : a.allowed e = true) : pageOf va < UPAGES := by
  by_contra hge
  have hU := hT.noUser _ e (by omega) he
  cases a <;> simp [Access.allowed, hU] at ha

/-- **An access of the user** completes if and only if the address is accessible, unless there is no
memory for a page that has to be mapped.  It changes nothing that the user sees. -/
lemma Space.userAccess (h : Space m T R) (hT : UserTable T psz tf) (hva : va < 2 ^ 64) :
    Returns (Xv6.userAccess a T.root psz va) (fun r m' => ∃ T' : PageTable, T'.root = T.root ∧
      Space m' T' R ∧ Frame m m' (T.userPages + R) ∧ SameView m T m' T' ∧
      Faulted T.leaf T'.leaf psz 0 UPAGES ∧ (m'.denied = false → m.denied = false) ∧
      ((r = none ∧ (T.Accessible a psz va → Lacks T m' (pageOf va))) ∨
       ∃ e, T'.leaf (pageOf va) = some e ∧ r = some (pte2pa e) ∧ pageOf va < UPAGES ∧
        T.Accessible a psz va ∧ a.allowed e = true)) m := by
  simp only [Returns, Xv6.userAccess, wp_bind, wp_get]
  rw [h.reach hT hva]
  -- The instruction faults unless the entry is there and allows the access.
  have hfault : (∀ e, T.leaf (pageOf va) = some e → a.allowed e = false) →
      ((T.leaf (pageOf va)).filter a.allowed).map pte2pa = none := by
    intro hno
    cases he : T.leaf (pageOf va) with
    | none => rfl
    | some e => simp [Option.filter, hno e he]
  by_cases hyes : ∃ e, T.leaf (pageOf va) = some e ∧ a.allowed e = true
  · obtain ⟨e, he, ha⟩ := hyes
    have hsome : ((T.leaf (pageOf va)).filter a.allowed).map pte2pa = some (pte2pa e) := by
      simp [he, Option.filter, ha]
    rw [hsome]
    exact ⟨T, rfl, h, Frame.refl _ _, SameView.refl _ _, Faulted.refl, id,
      Or.inr ⟨e, he, rfl, hT.lt_of_allowed he ha, (PageTable.accessible_of_some he).mpr ha, ha⟩⟩
  · have hno : ∀ e, T.leaf (pageOf va) = some e → a.allowed e = false := fun e he => by
      by_contra ha
      exact hyes ⟨e, he, by simpa using ha⟩
    rw [hfault hno]
    simp only [wp_bind]
    refine ((h.vmfault hT.size_le va).and vmfault_free).imp ?_
    rintro r m₁ ⟨⟨T₁, hr₁, hs₁, hf₁, hv₁, hres⟩, hd₁⟩
    rcases hres with ⟨rfl, hl, hwhy⟩ | ⟨hlt, hnone, hp, hl⟩
    · rw [wp_ite_pos rfl]
      refine ⟨T₁, hr₁, hs₁, hf₁, hv₁, hl ▸ Faulted.refl, fun hd => (hd₁ hd).1,
        Or.inl ⟨rfl, fun hacc => ?_⟩⟩
      cases he : T.leaf (pageOf va) with
      | none =>
        rw [PageTable.accessible_of_none he] at hacc
        exact ⟨denied_of_not hwhy (not_or.mpr ⟨by omega, not_not.mpr he⟩), he⟩
      | some e =>
        rw [PageTable.accessible_of_some he, hno e he] at hacc
        exact absurd hacc (by decide)
    · have hv : pageOf va < UPAGES := by
        refine lt_UPAGES_of_mul_lt (lt_of_le_of_lt ?_ hlt) hT.size_le
        exact Nat.div_mul_le_self va PGSIZE
      have hft : Faulted T.leaf T₁.leaf psz 0 UPAGES := by
        rw [hl]
        refine (Faulted.update hnone (lt_of_le_of_lt ?_ hlt) hp).mono_size hT.size_le
        exact Nat.div_mul_le_self va PGSIZE
      have he : T₁.leaf (pageOf va) = some (leafEntry r faultPerm) := by
        rw [hl, update_self]
      rw [wp_ite_neg hp.pos.ne']
      simp only [wp_bind, wp_get, wp_pure]
      rw [← hr₁, hs₁.reach (hT.faulted hft) hva]
      refine ⟨T₁, rfl, hs₁, hf₁, hv₁, hft, fun hd => (hd₁ hd).1, Or.inr ⟨_, he, ?_, hv,
        (PageTable.accessible_of_none hnone).mpr hlt, allowed_faultPerm r⟩⟩
      simp [he, Option.filter, allowed_faultPerm]

/-- **A store of the user** that completes changes one byte of what the user sees, and one that does
not complete changes nothing. -/
lemma Space.userStore (h : Space m T R) (hT : UserTable T psz tf) (hva : va < 2 ^ 64) (b : Byte) :
    Returns (Xv6.userStore T.root psz va b) (fun r m' => ∃ T' : PageTable, T'.root = T.root ∧
      Space m' T' R ∧ Frame m m' R ∧ Faulted T.leaf T'.leaf psz 0 UPAGES ∧
      (m'.denied = false → m.denied = false) ∧
      ((r = false ∧ (T.Accessible .store psz va → Lacks T m' (pageOf va)) ∧ SameView m T m' T') ∨
       (r = true ∧ pageOf va < UPAGES ∧ T.Accessible .store psz va ∧
        Stored m T m' T' va (fun _ => b) 0 1))) m := by
  simp only [Returns, Xv6.userStore, wp_bind]
  refine (h.userAccess hT hva).imp ?_
  rintro r m₁ ⟨T₁, hr₁, hs₁, hf₁, hv₁, hft, hd, hres⟩
  have hf₁' := hf₁.mono (Multiset.le_add_left R _)
  rcases hres with ⟨rfl, hlack⟩ | ⟨e, he, rfl, hv, hacc, _⟩
  · exact ⟨T₁, hr₁, hs₁, hf₁', hft, hd, Or.inl ⟨rfl, hlack, hv₁⟩⟩
  simp only [wp_bind, wp_modify, wp_pure]
  obtain ⟨hs₂, hf₂⟩ := hs₁.write_user hv he
    (update (m₁.page (pte2pa e)) (va % PGSIZE) b)
  refine ⟨T₁, hr₁, hs₂, hf₁'.trans hf₂, hft, hd, Or.inr ⟨trivial, hv, hacc, ?_⟩⟩
  -- A store of one byte is a copy of one byte.
  have hoff : va - pgRoundDown va = va % PGSIZE := by
    unfold pgRoundDown PGSIZE
    omega
  have hblit : update (m₁.page (pte2pa e)) (va % PGSIZE) b =
      (m₁.page (pte2pa e)).blit (va - pgRoundDown va) (fun _ => b) 0 1 := by
    funext i
    by_cases hi : i = va % PGSIZE
    · rw [hi, update_self, Bytes.blit_of_mem (by omega)]
    · rw [update_of_ne hi, Bytes.blit_of_notMem (by omega)]
  have hst := hs₁.stored_write (fun _ => b) 0 hv he (n := 1) (by
    unfold pgRoundDown PGSIZE
    omega)
  rw [hblit]
  intro u hu i hi
  rw [hst u hu i hi, hv₁ u hu i hi]

end Xv6
