import Xv6.Intr.Step

/-!
# Interrupt nesting is restored

What a section and a call of `yield` or `sleep` leave behind, however the threads are interleaved and
wherever they are resumed.  A section begins with a `push_off` and ends with the `pop_off` that
matches it, which is the first to bring the number of the thread's unmatched calls back to what it
was.  `Moves` says what one step may do to the calls that a thread has not matched and to the calls
of `yield` and `sleep` that it has not finished; the run lemmas follow a section and a call to their
ends.
-/

namespace Xv6.Intr

open Function Option

/-- The number of calls of `push_off` that a thread has not matched. -/
def Sys.unmatched (s : Sys) (x : Thread) : ℕ := (s.pushed x).length

/-- The thread is in a call of `yield` or `sleep` that was made at `ret` with interrupts `sie`, or in a
handler that has interrupted it. -/
def Pos.InCall : Pos → Bool → Pos → Prop
  | .call _ _ sie' ret', sie, ret => sie' = sie ∧ ret' = ret ∨ ret'.InCall sie ret
  | .handler q, sie, ret | .spin _ q, sie, ret | .pop q, sie, ret => q.InCall sie ret
  | _, _, _ => False

/-- What a step of thread `x` on CPU `c` may do. -/
structure Moves (s s' : Sys) (c : ℕ) (x : Thread) : Prop where
  pos_of_ne : ∀ y, y ≠ x → s'.pos y = s.pos y
  pos : ∀ sie ret, (s.pos x).InCall sie ret → (s'.pos x).InCall sie ret ∨
    ∃ f, s.pos x = .call f .leave sie ret ∧ s' = s.setPos x ret
  pushed_of_ne : ∀ y, y ≠ x → s'.pushed y = s.pushed y
  pushed : s'.pushed x = s.pushed x ∨ s'.pushed x = (s.hart c).sie :: s.pushed x ∨
    ∃ b, s.pushed x = b :: s'.pushed x ∧ s'.cur c = x ∧ (s'.hart c).sie = b
  cur_of_ne : ∀ c', c' ≠ c → s'.cur c' = s.cur c'
  cur : s'.cur c = x ∨ (s.hart c).noff = 1 ∧ (s.hart c).sie = false ∧
    (s'.hart c).noff = 1 ∧ (s'.hart c).sie = false

section

variable {s s' : Sys} {c : ℕ} {x : Thread} {h : Hart} {q q' : Pos} {o : List Bool}
  {lock : Spinlock → Option ℕ} {proc : ℕ → Proc}

lemma Moves.become (hx : s.cur c = x) (hpos : s.pos x = q)
    (hcall : ∀ sie ret, q.InCall sie ret → q'.InCall sie ret)
    (hpushed : o = s.pushed x ∨ o = (s.hart c).sie :: s.pushed x ∨
      ∃ b, s.pushed x = b :: o ∧ h.sie = b) :
    Moves s (s.become c x h q' o lock proc) c x where
  pos_of_ne y hy := update_of_ne hy _ _
  pos sie ret hin := Or.inl (by
    change (update s.pos x q' x).InCall sie ret
    rw [update_self]
    exact hcall sie ret (hpos ▸ hin))
  pushed_of_ne y hy := update_of_ne hy _ _
  pushed := by
    change update s.pushed x o x = _ ∨ update s.pushed x o x = _ ∨
      ∃ b, s.pushed x = b :: update s.pushed x o x ∧ s.cur c = x ∧
        (update s.hart c h c).sie = b
    rw [update_self, update_self]
    exact hpushed.imp_right (Or.imp_right fun ⟨b, hb, hsie⟩ => ⟨b, hb, hx, hsie⟩)
  cur_of_ne _ _ := rfl
  cur := Or.inl hx

/-- The two sides of `swtch`. -/
lemma Moves.switch {y : Thread} (hx : s.cur c = x) (hpos : s.pos x = q)
    (hcall : ∀ sie ret, q.InCall sie ret → q'.InCall sie ret)
    (hoff : (s.hart c).noff = 1 ∧ (s.hart c).sie = false ∧ h.noff = 1 ∧ h.sie = false) :
    Moves s ((s.become c x h q' (s.pushed x) s.lock s.proc).setCur c y) c x := by
  have hb : Moves s (s.become c x h q' (s.pushed x) s.lock s.proc) c x :=
    .become hx hpos hcall (Or.inl rfl)
  refine ⟨hb.pos_of_ne, fun sie ret hin => Or.inl ?_, hb.pushed_of_ne, Or.inl ?_,
    fun c' hc => update_of_ne hc _ _, Or.inr ?_⟩
  · change (update s.pos x q' x).InCall sie ret
    rw [update_self]
    exact hcall sie ret (hpos ▸ hin)
  · exact update_self ..
  · change _ ∧ _ ∧ (update s.hart c h c).noff = 1 ∧ (update s.hart c h c).sie = false
    rw [update_self]
    exact hoff

lemma Moves.panic (hx : s.cur c = x) (msg : String) : Moves s (s.panic msg) c x :=
  ⟨fun _ _ => rfl, fun _ _ h => Or.inl h, fun _ _ => rfl, Or.inl rfl, fun _ _ => rfl, Or.inl hx⟩

section

variable (hx : s.cur c = x) (hpos : s.pos x = q)
  (hcall : ∀ sie ret, q.InCall sie ret → q'.InCall sie ret)
include hx hpos hcall

lemma Moves.setPos : Moves s (s.setPos x q') c x := by
  rw [setPos_eq s c]
  exact .become hx hpos hcall (Or.inl rfl)

lemma Moves.setHart_setPos : Moves s ((s.setHart c h).setPos x q') c x := by
  rw [setHart_setPos_eq]
  exact .become hx hpos hcall (Or.inl rfl)

lemma Moves.setProc_setPos (j : ℕ) (p : Proc) : Moves s ((s.setProc j p).setPos x q') c x := by
  rw [setProc_setPos_eq s c]
  exact .become hx hpos hcall (Or.inl rfl)

lemma Moves.pushOff : Moves s (s.pushOff c x q') c x := .become hx hpos hcall (Or.inr (Or.inl rfl))

lemma Moves.popOff (hI : Inv s) (hset : q.Settled) : Moves s (s.popOff c x q') c x := by
  have hl := hI.loc_cur hx hpos
  cases ho : s.pushed x with
  | nil =>
    rw [ho] at hl
    obtain ⟨msg, hmsg⟩ := hl.popOff_nil
    rw [Sys.popOff, hmsg]
    exact .panic hx msg
  | cons b o =>
    rw [ho] at hl
    rw [Sys.popOff, hl.popOff_eq hset, ho]
    exact .become hx hpos hcall (Or.inr (Or.inr ⟨b, ho, rfl⟩))

lemma Moves.unlock (k : Spinlock) : Moves s (s.unlock c x k q') c x := by
  unfold Sys.unlock
  split
  case isTrue =>
    rw [setLock_setPos_eq s c]
    exact .become hx hpos hcall (Or.inl rfl)
  case isFalse => exact .panic hx _

lemma Moves.spin {k : Spinlock} (hs' : s.spin c x k q' = some s') : Moves s s' c x := by
  unfold Sys.spin at hs'
  split at hs'
  case h_1 =>
    obtain rfl := some.inj hs'
    rw [setLock_setPos_eq s c]
    exact .become hx hpos hcall (Or.inl rfl)
  case h_2 =>
    split at hs'
    · exact some.inj hs' ▸ .panic hx _
    · cases hs'

end

/-- What code does. -/
lemma Moves.op (hI : Inv s) (hx : s.cur c = x) (hq : (s.pos x).atCode) {a : Op}
    (hs' : s.op c x (s.pos x) a = some s') : Moves s s' c x := by
  cases a with
  | pushOff | acquire => exact some.inj hs' ▸ .pushOff hx rfl fun _ _ h => h
  | popOff =>
    exact some.inj hs' ▸ .popOff hx rfl (fun _ _ h => h) hI (Pos.free_of_atCode hq).settled
  | release k =>
    exact some.inj hs' ▸ .unlock hx rfl (fun _ _ h => show (Pos.pop (s.pos x)).InCall _ _ from h) k
  | call f =>
    rw [Sys.op] at hs'
    split at hs'
    case isTrue => exact some.inj hs' ▸ .setPos hx rfl fun _ _ h => Or.inr h
    case isFalse => cases hs'
  | store t u =>
    rw [Sys.op] at hs'
    split at hs'
    case isTrue =>
      obtain rfl := some.inj hs'
      rw [setProc_eq s c x]
      exact .become hx rfl (fun _ _ h => h) (Or.inl rfl)
    case isFalse => cases hs'
  | intrOn | intrOff =>
    rw [Sys.op] at hs'
    split at hs'
    case isTrue =>
      obtain rfl := some.inj hs'
      rw [setHart_eq s c x]
      exact .become hx rfl (fun _ _ h => h) (Or.inl rfl)
    case isFalse => cases hs'

/-- `yield` and `sleep`. -/
lemma Moves.call (hI : Inv s) (hx : s.cur c = x) {f : Fn} {st : Stage} {sie : Bool} {ret : Pos}
    (hpos : s.pos x = .call f st sie ret) (hs' : s.call c x f st sie ret = some s') :
    Moves s s' c x := by
  obtain ⟨t, rfl, hp, -, hname, -⟩ := hI.owner_of_call hx hpos
  -- from one stage of the call to another
  have hstage : ∀ st' sie' ret', (Pos.call f st sie ret).InCall sie' ret' →
      (Pos.call f st' sie ret).InCall sie' ret' := fun _ _ _ h => h
  cases st with
  | enter =>
    obtain ⟨i, -, hwith⟩ := hI.withProc_eq hx hp
    rw [Sys.call, hwith] at hs'
    exact some.inj hs' ▸ .setHart_setPos hx hpos (hstage _)
  | acquire p => exact some.inj hs' ▸ .pushOff hx hpos (hstage _)
  | spin p => exact .spin hx hpos (hstage _) hs'
  | locked p =>
    cases f with
    | yield => exact some.inj hs' ▸ .setProc_setPos hx hpos (hstage _) _ _
    | sleep =>
      rw [Sys.call] at hs'
      split at hs'
      · exact some.inj hs' ▸ .setProc_setPos hx hpos (hstage _) _ _
      · exact some.inj hs' ▸ .setPos hx hpos (hstage _)
  | sched p =>
    obtain ⟨i, -, hwith⟩ := hI.withProc_eq hx hp
    rw [Sys.call, Sys.sched, hwith] at hs'
    split_ifs at hs' with hlock hnoff hrun hsie
    · exact some.inj hs' ▸ .panic hx _
    · exact some.inj hs' ▸ .panic hx _
    · exact some.inj hs' ▸ .panic hx _
    · exact some.inj hs' ▸ .panic hx _
    · obtain rfl := some.inj hs'
      obtain rfl : t = p := some.inj hname
      rw [setHart_setPos_eq]
      exact .switch hx hpos (hstage _) ⟨not_not.mp hnoff, Bool.eq_false_iff.mpr hsie, not_not.mp hnoff,
        Bool.eq_false_iff.mpr hsie⟩
  | back p intena => exact some.inj hs' ▸ .setHart_setPos hx hpos (hstage _)
  | unlock p => exact some.inj hs' ▸ .unlock hx hpos (hstage _) _
  | pop => exact some.inj hs' ▸ .popOff hx hpos (hstage _) hI trivial
  | leave =>
    obtain rfl := some.inj hs'
    refine ⟨fun y hy => update_of_ne hy _ _, fun sie' ret' hin => ?_, fun _ _ => rfl,
      Or.inl rfl, fun _ _ => rfl, Or.inl hx⟩
    rw [hpos] at hin
    rcases hin with ⟨rfl, rfl⟩ | hin
    · exact Or.inr ⟨f, hpos, rfl⟩
    · left
      change (update s.pos (.proc t) ret (.proc t)).InCall sie' ret'
      rw [update_self]
      exact hin

/-- The next step of a thread. -/
lemma Moves.go (hI : Inv s) (hx : s.cur c = x) (hs' : s.go c x = some s') : Moves s s' c x := by
  cases hpos : s.pos x with
  | code =>
    rw [Sys.go, hpos] at hs'
    cases hs'
  | handler ret =>
    rw [Sys.go, hpos] at hs'
    simp only at hs'
    split at hs'
    case isTrue => exact some.inj hs' ▸ .setHart_setPos hx hpos fun _ _ h => h
    case isFalse => cases hs'
  | spin k ret =>
    rw [Sys.go, hpos] at hs'
    exact .spin hx hpos (fun _ _ h => show ret.InCall _ _ from h) hs'
  | pop ret =>
    rw [Sys.go, hpos] at hs'
    exact some.inj hs' ▸ .popOff hx hpos (fun _ _ h => show ret.InCall _ _ from h) hI trivial
  | call f st sie ret =>
    rw [Sys.go, hpos] at hs'
    exact .call hI hx hpos hs'
  | forkret =>
    have hsh := hI.shared c
    rw [hx] at hsh
    cases x with
    | sched d => exact absurd (hI.loc_cur hx hpos).ok Bool.false_ne_true
    | proc t =>
      obtain ⟨i, -, hwith⟩ := hI.withProc_eq hx hsh
      rw [Sys.go, hpos] at hs'
      simp only [hwith, Sys.unlock] at hs'
      split at hs'
      case isTrue =>
        obtain rfl := some.inj hs'
        rw [setHart_setLock_setPos_eq]
        exact .become hx hpos (fun _ _ h => h.elim) (Or.inl rfl)
      case isFalse =>
        obtain rfl := some.inj hs'
        exact ⟨fun _ _ => rfl, fun _ _ h => Or.inl h, fun _ _ => rfl, Or.inl rfl, fun _ _ => rfl,
          Or.inl hx⟩
  | forkretPop | popProc =>
    rw [Sys.go, hpos] at hs'
    exact some.inj hs' ▸ .popOff hx hpos (fun _ _ h => h.elim) hI trivial
  | intrOn | intrOff | resumed =>
    rw [Sys.go, hpos] at hs'
    exact some.inj hs' ▸ .setHart_setPos hx hpos fun _ _ h => h.elim
  | scan k found =>
    rw [Sys.go, hpos] at hs'
    simp only at hs'
    split at hs'
    · exact some.inj hs' ▸ .pushOff hx hpos fun _ _ h => h.elim
    · exact some.inj hs' ▸ .setPos hx hpos fun _ _ h => h.elim
  | spinProc k found =>
    rw [Sys.go, hpos] at hs'
    exact .spin hx hpos (fun _ _ h => h.elim) hs'
  | test k found =>
    rw [Sys.go, hpos] at hs'
    simp only at hs'
    split at hs'
    · obtain rfl := some.inj hs'
      rw [setProc_setHart_setPos_eq]
      exact .become hx hpos (fun _ _ h => h.elim) (Or.inl rfl)
    · exact some.inj hs' ▸ .setPos hx hpos fun _ _ h => h.elim
  | swtch k found =>
    have hl := hI.loc_cur hx hpos
    obtain rfl : x = .sched c := hI.eq_sched hx hl.ok
    rw [show s.pushed (.sched c) = [false] from hI.shape_sched hx hpos] at hl
    rw [Sys.go, hpos] at hs'
    obtain rfl := some.inj hs'
    rw [setPos_eq s c]
    have hsie := hl.off (List.cons_ne_nil _ _)
    exact .switch hx hpos (fun _ _ h => h.elim) ⟨hl.noff, hsie, hl.noff, hsie⟩
  | unlock k found =>
    rw [Sys.go, hpos] at hs'
    exact some.inj hs' ▸ .unlock hx hpos (fun _ _ h => h.elim) _

/-- What a step of the system may do. -/
lemma Inv.moves (hI : Inv s) {n : ℕ} {a : ℕ × Act} (hs' : Sys.step n s a = some s') :
    Moves s s' a.1 (s.cur a.1) := by
  rcases step_cases hs' with hgo | ⟨o, hq, hop⟩ | ⟨-, rfl⟩
  · exact .go hI rfl hgo
  · exact .op hI rfl hq hop
  · exact .setHart_setPos rfl rfl fun _ _ h => h

/-- A CPU is known by the thread it runs. -/
lemma Inv.cur_injective (hI : Inv s) {c' : ℕ} (hc : s.cur c' = s.cur c) : c' = c := by
  by_contra hne
  exact hI.cur_ne rfl hne hc

/-! ## Runs -/

section

variable {n : ℕ} {s₁ s₂ : Sys} {bs : List (ℕ × Act)} {b : Bool} {l : List Bool} {ret : Pos}

/-- At the end of a section interrupts are what they were at its beginning. -/
lemma Inv.section_end (hI : Inv s₁) (hsuf : b :: l <:+ s₁.pushed x)
    (hrun : run (Sys.step n) s₁ bs = some s₂)
    (hall : StepsOk (Sys.step n) (fun t _ => l.length < t.unmatched x) s₁ bs)
    (hend : s₂.unmatched x = l.length) : ∃ c, s₂.cur c = x ∧ (s₂.hart c).sie = b := by
  induction bs generalizing s₁ with
  | nil =>
    obtain rfl := some.inj hrun
    have hlen := hsuf.length_le
    rw [List.length_cons] at hlen
    rw [Sys.unmatched] at hend
    omega
  | cons a bs ih =>
    obtain ⟨t, ht, hrun⟩ := run_cons_eq_some.mp hrun
    have hm := hI.moves ht
    -- the section goes on unless its own `push_off` is matched
    by_cases hx : x = s₁.cur a.1
    · subst hx
      rcases hm.pushed with heq | heq | ⟨b', heq, hcur, hsie⟩
      · exact ih (hI.step ht) (by rw [heq]; exact hsuf) hrun (hall.2 t ht)
      · exact ih (hI.step ht) (by rw [heq]; exact hsuf.trans (List.suffix_cons _ _)) hrun
          (hall.2 t ht)
      · rw [heq, List.suffix_cons_iff] at hsuf
        rcases hsuf with hbl | hsuf
        · obtain ⟨rfl, hl⟩ := List.cons.inj hbl
          cases bs with
          | nil =>
            obtain rfl := some.inj hrun
            exact ⟨a.1, hcur, hsie⟩
          | cons a' bs =>
            have hlt : l.length < (t.pushed (s₁.cur a.1)).length := (hall.2 t ht).1
            rw [hl] at hlt
            exact absurd hlt (Nat.lt_irrefl _)
        · exact ih (hI.step ht) hsuf hrun (hall.2 t ht)
    · exact ih (hI.step ht) (by rw [hm.pushed_of_ne x hx]; exact hsuf) hrun (hall.2 t ht)

/-- The position at which a call was made is smaller than those within it. -/
lemma Pos.InCall.sizeOf_lt {q : Pos} (h : q.InCall b ret) : sizeOf ret < sizeOf q := by
  induction q with
  | call f st sie ret' ih =>
    rw [Pos.call.sizeOf_spec]
    rcases h with ⟨-, rfl⟩ | h
    · omega
    · have := ih h
      omega
  | handler q ih | spin k q ih | pop q ih =>
    have := ih h
    simp only [Pos.handler.sizeOf_spec, Pos.spin.sizeOf_spec, Pos.pop.sizeOf_spec]
    omega
  | _ => exact h.elim

/-- When a call returns interrupts are what they were when it was made. -/
lemma Inv.call_end (hI : Inv s₁) (hin : (s₁.pos x).InCall b ret)
    (hrun : run (Sys.step n) s₁ bs = some s₂)
    (hall : StepsOk (Sys.step n) (fun t _ => t.pos x ≠ ret) s₁ bs) (hend : s₂.pos x = ret) :
    ∃ c, s₂.cur c = x ∧ (s₂.hart c).sie = b := by
  induction bs generalizing s₁ with
  | nil =>
    obtain rfl := some.inj hrun
    rw [hend] at hin
    exact absurd hin.sizeOf_lt (Nat.lt_irrefl _)
  | cons a bs ih =>
    obtain ⟨t, ht, hrun⟩ := run_cons_eq_some.mp hrun
    have hm := hI.moves ht
    by_cases hx : x = s₁.cur a.1
    · subst hx
      rcases hm.pos b ret hin with hin' | ⟨f, hpos, rfl⟩
      · exact ih (hI.step ht) hin' hrun (hall.2 t ht)
      · have hret : (s₁.setPos (s₁.cur a.1) ret).pos (s₁.cur a.1) = ret := update_self ..
        cases bs with
        | nil =>
          obtain rfl := some.inj hrun
          have hrec := (hI.loc a.1).recorded
          rw [hpos] at hrec
          exact ⟨a.1, rfl, (hrec.2 id).symm⟩
        | cons a' bs => exact absurd hret (hall.2 _ ht).1
    · exact ih (hI.step ht) (by rw [hm.pos_of_ne x hx]; exact hin) hrun (hall.2 t ht)

end

end

/-- A call of `yield` or `sleep` records the interrupt state. -/
lemma inCall_of_step {n : ℕ} {s s' : Sys} {c : ℕ} {f : Fn}
    (hs' : Sys.step n s (c, .op (.call f)) = some s') :
    (s'.pos (s.cur c)).InCall (s.hart c).sie (s.pos (s.cur c)) := by
  unfold Sys.step at hs'
  simp only [Sys.op] at hs'
  split_ifs at hs'
  obtain rfl := some.inj hs'
  change (update s.pos (s.cur c) _ (s.cur c)).InCall _ _
  rw [update_self]
  exact Or.inl ⟨rfl, rfl⟩

/-- **Interrupt nesting is restored across switches.**  In every state that threads on any number of
CPUs can reach, `noff` of a CPU is the number of calls of `push_off` that its thread has not matched
and interrupts are enabled only if there is none; a `swtch` happens with one such call on either side
and with interrupts off; and at the end of every section, and when `yield` or `sleep` returns,
interrupts are what they were before it, on whatever CPU the thread is now. -/
theorem interrupt_nesting_restored (n : ℕ) (p : ℕ → Proc) {as : List (ℕ × Act)} {s : Sys}
    (h : run (Sys.step n) (Sys.boot p) as = some s) :
    (∀ c, (s.hart c).noff = s.unmatched (s.cur c) ∧
      ((s.hart c).sie = true → (s.hart c).noff = 0)) ∧
    (∀ a s' c, Sys.step n s a = some s' → s'.cur c ≠ s.cur c →
      (s.hart c).noff = 1 ∧ (s.hart c).sie = false ∧
      (s'.hart c).noff = 1 ∧ (s'.hart c).sie = false) ∧
    (∀ c a s₁ bs s₂, Sys.step n s a = some s₁ →
      s₁.unmatched (s.cur c) = s.unmatched (s.cur c) + 1 →
      run (Sys.step n) s₁ bs = some s₂ →
      StepsOk (Sys.step n) (fun t _ => s.unmatched (s.cur c) < t.unmatched (s.cur c)) s₁ bs →
      s₂.unmatched (s.cur c) = s.unmatched (s.cur c) →
      ∃ c', s₂.cur c' = s.cur c ∧ (s₂.hart c').sie = (s.hart c).sie) ∧
    (∀ c f s₁ bs s₂, Sys.step n s (c, .op (.call f)) = some s₁ →
      run (Sys.step n) s₁ bs = some s₂ →
      StepsOk (Sys.step n) (fun t _ => t.pos (s.cur c) ≠ s.pos (s.cur c)) s₁ bs →
      s₂.pos (s.cur c) = s.pos (s.cur c) →
      ∃ c', s₂.cur c' = s.cur c ∧ (s₂.hart c').sie = (s.hart c).sie) := by
  have hI : Inv s := run_invariant (fun _ _ _ hI hs => hI.step hs) Inv.boot h
  refine ⟨fun c => ⟨(hI.loc c).noff, fun hsie => ?_⟩, fun a s' c hs' hcur => ?_,
    fun c a s₁ bs s₂ hs₁ hpush hrun hall hend => ?_, fun c f s₁ bs s₂ hs₁ hrun hall hend => ?_⟩
  · rw [(hI.loc c).noff, (hI.loc c).noff_eq_zero hsie]
    rfl
  · have hm := hI.moves hs'
    by_cases hc : c = a.1
    · subst hc
      exact hm.cur.resolve_left hcur
    · exact absurd (hm.cur_of_ne c hc) hcur
  · have hm := hI.moves hs₁
    unfold Sys.unmatched at hpush
    by_cases hx : s.cur c = s.cur a.1
    · obtain rfl := hI.cur_injective hx
      rcases hm.pushed with heq | heq | ⟨b, heq, -⟩
      · rw [heq] at hpush
        omega
      · exact (hI.step hs₁).section_end (by simp only [heq, List.suffix_refl]) hrun hall hend
      · rw [heq, List.length_cons] at hpush
        omega
    · rw [hm.pushed_of_ne _ hx] at hpush
      omega
  · exact (hI.step hs₁).call_end (inCall_of_step hs₁) hrun hall hend

/-- The thread of process 0 runs on CPU 0, with interrupts on. -/
def beforeYield : Sys := after (Sys.step 2) (Sys.boot fun _ => { state := .runnable })
  (List.replicate 8 (0, .go) ++ [(0, .op .intrOn)])

/-- It calls `yield`. -/
def yieldCalled : Sys := after (Sys.step 2) beforeYield [(0, .op (.call .yield))]

/-- CPU 0 switches to its scheduler, and that of CPU 1 to the thread, in which `yield` returns. -/
def yieldSteps : List (ℕ × Act) := List.replicate 7 (0, .go) ++ List.replicate 10 (1, .go)

/-- Interrupts are on again in the thread, which now runs on another CPU. -/
theorem interrupt_nesting_restored_yield : ∃ s, run (Sys.step 2) yieldCalled yieldSteps = some s ∧
    beforeYield.cur 0 = .proc 0 ∧ (beforeYield.hart 0).sie = true ∧ s.cur 0 = .sched 0 ∧
    ∃ c, s.cur c = .proc 0 ∧ (s.hart c).sie = true := by
  have hbefore := run_eq_some_after (Sys.step 2) (Sys.boot fun _ => { state := .runnable })
    (List.replicate 8 (0, .go) ++ [(0, .op .intrOn)]) (by decide +kernel)
  have hcalled : Sys.step 2 beforeYield (0, .op (.call .yield)) = some yieldCalled :=
    step_eq_some_after _ _ _ (by decide +kernel)
  have hrun := run_eq_some_after (Sys.step 2) yieldCalled yieldSteps (by decide +kernel)
  have hcur : beforeYield.cur 0 = .proc 0 := by decide +kernel
  have hsie : (beforeYield.hart 0).sie = true := by decide +kernel
  obtain ⟨c, hc, hrestored⟩ := (interrupt_nesting_restored 2 _ hbefore).2.2.2 0 .yield yieldCalled
    yieldSteps _ hcalled hrun (by decide +kernel) (by decide +kernel)
  exact ⟨_, hrun, hcur, hsie, by decide +kernel, c, hc.trans hcur, hrestored.trans hsie⟩

end Xv6.Intr
