import Xv6.Intr.Basic

/-!
# The invariant of interrupt nesting

`Local` relates a CPU to the thread it runs: `noff` counts the thread's unmatched calls of
`push_off`, interrupts are off while there is one, and `intena` is the state to go back to when the
last of them is matched.  Around `swtch` the latter does not hold: after it `sched` still has to
restore `intena` from its local variable, and `scheduler` has to clear it (`Pos.Settled`).

Both threads at a `swtch` have one unmatched call, so that `noff` is right for the thread that goes
on although the call it counts was made by the other.  That nobody else runs the thread that goes on
follows from the locks: a process that is on a CPU is `RUNNING` or is in `sched` with its lock held
by that CPU (`ProcOn`).
-/

namespace Xv6.Intr

open Function List

/-! ## Positions -/

namespace Stage

/-- Between `push_off` and `pop_off`. -/
def Inside : Stage → Prop
  | .spin _ | .locked _ | .sched _ | .back _ _ | .unlock _ | .pop => True
  | .enter | .acquire _ | .leave => False

/-- The process that the stage names, if any, is `t`. -/
def Names (t : Option ℕ) : Stage → Prop
  | .acquire p | .spin p | .locked p | .sched p | .back p _ | .unlock p => t = some p
  | .enter | .pop | .leave => t.isSome

end Stage

namespace Pos

/-- Between a `push_off` of one of the functions and its `pop_off`. -/
def Inside : Pos → Prop
  | .spin _ _ | .forkret | .forkretPop | .spinProc _ _ | .test _ _ | .swtch _ _ | .resumed _ _
  | .unlock _ _ | .popProc _ _ => True
  | .call _ st _ _ => st.Inside
  | _ => False

/-- A position that an interrupt may strike. -/
def Calm : Pos → Prop
  | .code | .pop _ | .intrOn | .intrOff => True
  | .call _ st sie _ => ¬st.Inside ∧ sie = true
  | _ => False

/-- The position belongs to process `t`, or to a scheduler, in a thread for which interrupts are `w`
outside all sections. -/
def Ok (t : Option ℕ) (w : Bool) : Pos → Prop
  | .code | .forkret | .forkretPop => t.isSome
  | .handler ret => w = false ∧ ret.Calm ∧ ret.Ok t true
  | .spin _ ret | .pop ret => ret.atCode ∧ ret.Ok t w
  | .call _ st _ ret => ret.atCode ∧ st.Names t ∧ ret.Ok t w
  | _ => t = none

/-- The interrupt state at the call of a function is the present one, or the one that the function's
`push_off` has recorded. -/
def Recorded (v : Bool) (o : List Bool) : Pos → Prop
  | .call _ st sie _ => (st.Inside → o.head? = some sie) ∧ (¬st.Inside → sie = v)
  | _ => True

/-- `intena` belongs to the thread. -/
def Settled : Pos → Prop
  | .call _ (.back _ _) _ _ | .resumed _ _ => False
  | _ => True

/-- The local variable `intena` of `sched` is the state to go back to. -/
def Saved (w : Bool) : Pos → Prop
  | .call _ (.back _ intena) _ _ => intena = w
  | _ => True

/-- At `sched`, with the state of the process changed. -/
def AtSched : Pos → Prop
  | .call _ (.sched _) _ _ => True
  | _ => False

/-- The lock of the process is held. -/
def HoldsLock : Pos → Prop
  | .call _ (.locked _) _ _ | .call _ (.sched _) _ _ => True
  | _ => False

/-- A position with which the CPU shares nothing but that it runs the thread. -/
def Plain : Pos → Prop
  | .call _ (.locked _) _ _ | .call _ (.sched _) _ _ | .test _ _ | .swtch _ _ | .resumed _ _ => False
  | _ => True

lemma AtSched.holdsLock {q : Pos} (h : q.AtSched) : q.HoldsLock := by
  unfold AtSched at h
  split at h
  case h_1 => trivial
  case h_2 => exact h.elim

lemma Plain.not_holdsLock {q : Pos} (hq : q.Plain) : ¬q.HoldsLock := by
  intro h
  unfold HoldsLock at h
  split at h
  case h_1 => exact hq
  case h_2 => exact hq
  case h_3 => exact h

/-- What a scheduler has pushed. -/
def SchedShape (v : Bool) (o : List Bool) : Pos → Prop
  | .intrOn | .intrOff => o = []
  | .scan _ _ => o = [] ∧ v = false
  | .spinProc _ _ | .test _ _ | .swtch _ _ | .resumed _ _ | .unlock _ _ | .popProc _ _ => o = [false]
  | _ => True

end Pos

/-- Whether interrupts are enabled outside all sections of a thread. -/
def outer (v : Bool) (o : List Bool) : Bool := o.getLast?.getD v

/-! ## The invariant -/

/-- A CPU and the thread it runs. -/
structure Local (t : Option ℕ) (h : Hart) (q : Pos) (o : List Bool) : Prop where
  noff : h.noff = o.length
  off : o ≠ [] → h.sie = false
  inner : ∀ b ∈ o.dropLast, b = false
  ok : q.Ok t (outer h.sie o)
  recorded : q.Recorded h.sie o
  intena : o ≠ [] → q.Settled → h.intena = outer h.sie o
  saved : q.Saved (outer h.sie o)
  inside : q.Inside → o ≠ []

/-- The process a thread belongs to. -/
def Thread.owner : Thread → Option ℕ
  | .proc t => some t
  | .sched _ => none

/-- CPU `c` runs the thread of process `t`. -/
structure ProcOn (s : Sys) (c t : ℕ) : Prop where
  proc : (s.hart c).proc = some t
  state : (s.proc t).state = .running ∨ (s.pos (.proc t)).AtSched
  holds : (s.pos (.proc t)).HoldsLock → s.lock (.proc t) = some c
  resumed : ∃ k found, s.pos (.sched c) = .resumed k found
  pushed : s.pushed (.sched c) = [false]

/-- CPU `c` runs its scheduler. -/
structure SchedOn (s : Sys) (c : ℕ) : Prop where
  shape : (s.pos (.sched c)).SchedShape (s.hart c).sie (s.pushed (.sched c))
  proc : (∀ k found, s.pos (.sched c) ≠ .swtch k found ∧ s.pos (.sched c) ≠ .resumed k found) →
    (s.hart c).proc = none
  test : ∀ k found, s.pos (.sched c) = .test k found → s.lock (.proc k) = some c
  swtch : ∀ k found, s.pos (.sched c) = .swtch k found → s.lock (.proc k) = some c ∧
    (s.hart c).proc = some k ∧ (s.proc k).state = .running ∧ ∀ c', s.cur c' ≠ .proc k

/-- What a CPU shares with the others. -/
def Shared (s : Sys) (c : ℕ) : Thread → Prop
  | .proc t => ProcOn s c t
  | .sched c' => c' = c ∧ SchedOn s c

/-- The thread of process `t` may be resumed. -/
structure Suspended (q : Pos) (o : List Bool) (t : ℕ) : Prop where
  ok : q.Ok (some t) (outer false o)
  back : (∃ f b ret, q = .call f (.back t b) b ret ∧ o = [b]) ∨ q = .forkret ∧ o = [false]

/-- The invariant. -/
structure Inv (s : Sys) : Prop where
  loc : ∀ c, Local (s.cur c).owner (s.hart c) (s.pos (s.cur c)) (s.pushed (s.cur c))
  shared : ∀ c, Shared s c (s.cur c)
  unique : ∀ c c' t, s.cur c = .proc t → s.cur c' = .proc t → c = c'
  suspended : ∀ t, (∀ c, s.cur c ≠ .proc t) →
    Suspended (s.pos (.proc t)) (s.pushed (.proc t)) t

lemma Inv.boot {p : ℕ → Proc} : Inv (Sys.boot p) where
  loc _ := ⟨rfl, fun h => absurd rfl h, nofun, rfl, trivial, fun h => absurd rfl h, trivial, nofun⟩
  shared _ := ⟨rfl, rfl, fun _ => rfl, nofun, nofun⟩
  unique := nofun
  suspended _ _ := ⟨rfl, Or.inr ⟨rfl, rfl⟩⟩

/-! ## One CPU and its thread -/

section

variable {t : Option ℕ} {h h' : Hart} {q q' : Pos} {o : List Bool} {b v : Bool}

@[simp] lemma outer_nil (v : Bool) : outer v [] = v := rfl

lemma outer_cons (v b : Bool) (o : List Bool) : outer v (b :: o) = outer b o := by
  cases o with
  | nil => rfl
  | cons d o => rw [outer, outer, List.getLast?_cons_cons, List.getLast?_cons, Option.getD_some]; rfl

/-- Interrupts are enabled only outside all sections. -/
lemma Local.noff_eq_zero (hl : Local t h q o) (hs : h.sie = true) : o = [] := by
  by_contra ho
  exact absurd (hl.off ho) (by rw [hs]; decide)

/-- `push_off`. -/
lemma Local.pushOff (hl : Local t h q o) (hq : q.Settled) (hok : q'.Ok t (outer h.sie o))
    (hrec : q'.Recorded false (h.sie :: o)) (hsaved : q'.Saved (outer h.sie o)) :
    Local t h.pushOff q' (h.sie :: o) where
  noff := congrArg (· + 1) hl.noff
  off _ := rfl
  inner b hb := by
    cases o with
    | nil => exact absurd hb not_mem_nil
    | cons d o =>
      rcases mem_cons.mp hb with rfl | hb
      · exact hl.off (cons_ne_nil _ _)
      · exact hl.inner b hb
  ok := by
    rw [outer_cons]
    exact hok
  recorded := hrec
  intena _ _ := by
    rw [outer_cons]
    change (if h.noff = 0 then h.sie else h.intena) = outer h.sie o
    rw [hl.noff]
    cases o with
    | nil => rfl
    | cons d o => exact hl.intena (cons_ne_nil _ _) hq
  saved := by
    rw [outer_cons]
    exact hsaved
  inside _ := cons_ne_nil _ _

/-- `pop_off` goes back to the state that the matching `push_off` has recorded. -/
lemma Local.popOff_eq (hl : Local t h q (b :: o)) (hq : q.Settled) :
    h.popOff = .ok { h with noff := o.length, sie := b } := by
  have hsie := hl.off (cons_ne_nil b o)
  have hnoff : h.noff = o.length + 1 := hl.noff
  have hint : h.intena = outer b o := by
    rw [hl.intena (cons_ne_nil b o) hq, outer_cons]
  have hb : (if o.length = 0 ∧ h.intena = true then true else false) = b := by
    cases o with
    | nil =>
      rw [hint, outer_nil]
      cases b <;> rfl
    | cons d o => exact (hl.inner b mem_cons_self).symm
  rw [Hart.popOff, if_neg (by rw [hsie]; decide), if_neg (by omega), hsie, hnoff,
    Nat.add_sub_cancel, hb]

/-- `pop_off` without a `push_off` to match. -/
lemma Local.popOff_nil (hl : Local t h q []) : ∃ msg, h.popOff = .error msg := by
  have hnoff : h.noff = 0 := hl.noff
  rw [Hart.popOff]
  split
  case isTrue => exact ⟨_, rfl⟩
  case isFalse => exact ⟨_, if_pos (by omega)⟩

lemma Local.popOff (hl : Local t h q (b :: o)) (hq : q.Settled) (hok : q'.Ok t (outer b o))
    (hrec : q'.Recorded b o) (hsaved : q'.Saved (outer b o)) (hin : ¬q'.Inside) :
    Local t { h with noff := o.length, sie := b } q' o where
  noff := rfl
  off ho := by
    cases o with
    | nil => exact absurd rfl ho
    | cons d o => exact hl.inner b mem_cons_self
  inner d hd := by
    cases o with
    | nil => exact absurd hd not_mem_nil
    | cons e o => exact hl.inner d (mem_cons_of_mem _ hd)
  ok := hok
  recorded := hrec
  intena _ _ := by rw [hl.intena (cons_ne_nil b o) hq, outer_cons]
  saved := hsaved
  inside hq' := absurd hq' hin

/-- `myproc` changes nothing that matters. -/
lemma Local.myproc_eq (hl : Local t h q o) :
    ∃ i, h.myproc = .ok { h with intena := i } ∧ (o ≠ [] → i = h.intena) := by
  refine ⟨if h.noff = 0 then h.sie else h.intena, ?_, fun ho => if_neg ?_⟩
  · have hoff := hl.off
    have hnoff := hl.noff
    cases o with
    | nil =>
      have h0 : h.noff = 0 := hnoff
      simp [Hart.myproc, Hart.pushOff, Hart.popOff, h0]
    | cons b o =>
      have h0 : h.noff ≠ 0 := by rw [hnoff]; exact Nat.succ_ne_zero _
      simp [Hart.myproc, Hart.pushOff, Hart.popOff, h0, hoff]
  · rw [hl.noff]
    exact fun h0 => ho (length_eq_zero_iff.mp h0)

/-- `intena` does not matter outside all sections. -/
lemma Local.setIntena {i : Bool} (hl : Local t h q o) (hi : o ≠ [] → i = h.intena) :
    Local t { h with intena := i } q o where
  noff := hl.noff
  off := hl.off
  inner := hl.inner
  ok := hl.ok
  recorded := hl.recorded
  intena ho hq := (hi ho).trans (hl.intena ho hq)
  saved := hl.saved
  inside := hl.inside

/-- The thread goes on without a change to the CPU. -/
lemma Local.move (hl : Local t h q o) (hok : q'.Ok t (outer h.sie o)) (hrec : q'.Recorded h.sie o)
    (hsettled : q'.Settled → q.Settled) (hsaved : q'.Saved (outer h.sie o))
    (hin : q'.Inside → q.Inside) : Local t h q' o where
  noff := hl.noff
  off := hl.off
  inner := hl.inner
  ok := hok
  recorded := hrec
  intena ho hq' := hl.intena ho (hsettled hq')
  saved := hsaved
  inside hq' := hl.inside (hin hq')

/-- The interrupt-enable bit changes outside all sections. -/
lemma Local.setSie (hl : Local t h q []) (hok : q'.Ok t v) (hrec : q'.Recorded v [])
    (hsaved : q'.Saved v) (hin : ¬q'.Inside) : Local t { h with sie := v } q' [] where
  noff := hl.noff
  off ho := absurd rfl ho
  inner := nofun
  ok := hok
  recorded := hrec
  intena ho := absurd rfl ho
  saved := hsaved
  inside hq' := absurd hq' hin

end

/-! ## One CPU and the others -/

/-- The state in which thread `x` has gone on, on CPU `c`. -/
def Sys.become (s : Sys) (c : ℕ) (x : Thread) (h : Hart) (q : Pos) (o : List Bool)
    (lock : Spinlock → Option ℕ) (proc : ℕ → Proc) : Sys :=
  { s with
    hart := update s.hart c h, pos := update s.pos x q
    pushed := update s.pushed x o, lock := lock, proc := proc }

/-- What a step of CPU `c` leaves to the others. -/
structure Keeps (s : Sys) (c : ℕ) (x : Thread) (lock : Spinlock → Option ℕ) (proc : ℕ → Proc) :
    Prop where
  lock : ∀ k c', c' ≠ c → s.lock k = some c' → lock k = some c'
  running : ∀ t, .proc t ≠ x → (s.proc t).state = .running → (proc t).state = .running
  held : ∀ t c', c' ≠ c → s.lock (.proc t) = some c' → proc t = s.proc t

section

variable {s : Sys} {c : ℕ} {x : Thread} {h : Hart} {q : Pos} {o : List Bool}
  {lock : Spinlock → Option ℕ} {proc : ℕ → Proc}

lemma Inv.cur_sched (hI : Inv s) {c' : ℕ} (h : s.cur c = .sched c') : c' = c := by
  have := hI.shared c
  rw [h] at this
  exact this.1

lemma Inv.cur_ne (hI : Inv s) (hx : s.cur c = x) {c' : ℕ} (hc : c' ≠ c) : s.cur c' ≠ x := by
  intro hx'
  cases x with
  | proc t => exact hc (hI.unique _ _ t hx' hx)
  | sched d => exact hc ((hI.cur_sched hx').symm.trans (hI.cur_sched hx))

section

variable {c' t : ℕ} (hI : Inv s) (hx : s.cur c = x) (hk : Keeps s c x lock proc) (hc : c' ≠ c)
include hI hx hk hc

/-- The scheduler thread of another CPU does not run here. -/
lemma Inv.sched_ne : Thread.sched c' ≠ x := by
  rintro rfl
  exact hc (hI.cur_sched hx)

lemma ProcOn.frame (ht : s.cur c' = .proc t) (hp : ProcOn s c' t) :
    ProcOn (s.become c x h q o lock proc) c' t := by
  have hne : Thread.proc t ≠ x := fun h => hI.cur_ne hx hc (ht.trans h)
  have hne' := hI.sched_ne hx hk hc
  have hpos : (s.become c x h q o lock proc).pos (.proc t) = s.pos (.proc t) :=
    update_of_ne hne _ _
  refine ⟨?_, ?_, ?_, ?_, ?_⟩
  · exact (congrArg Hart.proc (update_of_ne hc _ _)).trans hp.proc
  · rw [hpos]
    exact hp.state.imp_left (hk.running t hne)
  · rw [hpos]
    exact fun hq => hk.lock _ _ hc (hp.holds hq)
  · obtain ⟨k, found, hpos'⟩ := hp.resumed
    exact ⟨k, found, (update_of_ne hne' _ _).trans hpos'⟩
  · exact (update_of_ne hne' _ _).trans hp.pushed

lemma SchedOn.frame (hp : SchedOn s c') : SchedOn (s.become c x h q o lock proc) c' := by
  have hne := hI.sched_ne hx hk hc
  have hpos : (s.become c x h q o lock proc).pos (.sched c') = s.pos (.sched c') :=
    update_of_ne hne _ _
  have hhart : (s.become c x h q o lock proc).hart c' = s.hart c' := update_of_ne hc _ _
  refine ⟨?_, ?_, ?_, ?_⟩
  · have hpushed : (s.become c x h q o lock proc).pushed (.sched c') = s.pushed (.sched c') :=
      update_of_ne hne _ _
    rw [hpos, hhart, hpushed]
    exact hp.shape
  · rw [hpos, hhart]
    exact hp.proc
  · rw [hpos]
    exact fun k found hq => hk.lock _ _ hc (hp.test k found hq)
  · rw [hpos, hhart]
    intro k found hq
    obtain ⟨hlock, hproc, hrun, hcur⟩ := hp.swtch k found hq
    refine ⟨hk.lock _ _ hc hlock, hproc, ?_, hcur⟩
    change (proc k).state = .running
    rw [hk.held k c' hc hlock]
    exact hrun

end

/-- A step of one thread does not change what the other CPUs know. -/
lemma Inv.loc_of_ne {c' : ℕ} (hI : Inv s) (hx : s.cur c = x) (hc : c' ≠ c) :
    Local (s.cur c').owner (update s.hart c h c') (update s.pos x q (s.cur c'))
      (update s.pushed x o (s.cur c')) := by
  have hne := hI.cur_ne hx hc
  rw [update_of_ne hc, update_of_ne hne, update_of_ne hne]
  exact hI.loc c'

/-- A step of one thread keeps the invariant if it does so on its own CPU. -/
lemma Inv.become (hI : Inv s) (hx : s.cur c = x) (hk : Keeps s c x lock proc)
    (hloc : Local x.owner h q o) (hsh : Shared (s.become c x h q o lock proc) c x) :
    Inv (s.become c x h q o lock proc) where
  loc c' := by
    by_cases hc : c' = c
    · subst hc
      change Local (s.cur c').owner (update s.hart c' h c')
        (update s.pos x q (s.cur c')) (update s.pushed x o (s.cur c'))
      rw [hx, update_self, update_self, update_self]
      exact hloc
    · exact hI.loc_of_ne hx hc
  shared c' := by
    by_cases hc : c' = c
    · subst hc
      change Shared _ c' (s.cur c')
      rw [hx]
      exact hsh
    · have hold := hI.shared c'
      change Shared _ c' (s.cur c')
      cases hcur : s.cur c' with
      | proc t =>
        rw [hcur] at hold
        exact hold.frame hI hx hk hc hcur
      | sched d =>
        rw [hcur] at hold
        exact ⟨hold.1, hold.2.frame hI hx hk hc⟩
  unique := hI.unique
  suspended t ht := by
    have hne : Thread.proc t ≠ x := fun h => ht c (hx.trans h.symm)
    change Suspended (update s.pos x q (.proc t)) (update s.pushed x o (.proc t)) t
    rw [update_of_ne hne, update_of_ne hne]
    exact hI.suspended t ht

/-- CPU `c` switches from thread `x`, which is left behind, to thread `y`. -/
lemma Inv.switch {y : Thread} (hI : Inv s) (hx : s.cur c = x) (hy : ∀ c', s.cur c' ≠ y)
    (hxy : x ≠ y) (hloc : Local y.owner h (s.pos y) (s.pushed y))
    (hsh : Shared ((s.become c x h q o s.lock s.proc).setCur c y) c y)
    (hsusp : ∀ t, x = .proc t → Suspended q o t)
    (hswtch : ∀ c' k found, c' ≠ c → s.cur c' = .sched c' → s.pos (.sched c') = .swtch k found →
      y ≠ .proc k) :
    Inv ((s.become c x h q o s.lock s.proc).setCur c y) := by
  have hk : Keeps s c x s.lock s.proc := ⟨fun _ _ _ h => h, fun _ _ h => h, fun _ _ _ _ => rfl⟩
  have hcur : ∀ c', c' ≠ c → ((s.become c x h q o s.lock s.proc).setCur c y).cur c' = s.cur c' :=
    fun c' hc => by
      change update s.cur c y c' = s.cur c'
      rw [update_of_ne hc]
  have hcur' : ((s.become c x h q o s.lock s.proc).setCur c y).cur c = y := by
    change update s.cur c y c = y
    rw [update_self]
  refine ⟨fun c' => ?_, fun c' => ?_, fun c₁ c₂ t h₁ h₂ => ?_, fun t ht => ?_⟩
  · by_cases hc : c' = c
    · subst hc
      rw [hcur']
      change Local y.owner (update s.hart c' h c') (update s.pos x q y)
        (update s.pushed x o y)
      rw [update_self, update_of_ne hxy.symm, update_of_ne hxy.symm]
      exact hloc
    · rw [hcur c' hc]
      exact hI.loc_of_ne hx hc
  · by_cases hc : c' = c
    · subst hc
      rw [hcur']
      exact hsh
    · have hold := hI.shared c'
      rw [hcur c' hc]
      cases hcur'' : s.cur c' with
      | proc t =>
        rw [hcur''] at hold
        have hf := hold.frame (h := h) (q := q) (o := o) hI hx hk hc hcur''
        exact ⟨hf.proc, hf.state, hf.holds, hf.resumed, hf.pushed⟩
      | sched d =>
        rw [hcur''] at hold
        obtain ⟨rfl, hold⟩ := hold
        have hf := hold.frame (h := h) (q := q) (o := o) hI hx hk hc
        refine ⟨rfl, hf.shape, hf.proc, hf.test, fun k found hq => ?_⟩
        obtain ⟨hlock, hproc, hrun, hne⟩ := hf.swtch k found hq
        refine ⟨hlock, hproc, hrun, fun c₁ => ?_⟩
        by_cases h₁ : c₁ = c
        · subst h₁
          change update s.pos x q (.sched d) = .swtch k found at hq
          rw [update_of_ne (hI.sched_ne hx hk hc)] at hq
          rw [hcur']
          exact hswtch d k found hc hcur'' hq
        · rw [hcur c₁ h₁]
          exact hne c₁
  · by_cases hc₁ : c₁ = c
    · subst hc₁
      rw [hcur'] at h₁
      by_contra hne
      have hne' : c₂ ≠ c₁ := fun h => hne h.symm
      rw [hcur c₂ hne'] at h₂
      exact hy c₂ (h₂.trans h₁.symm)
    · rw [hcur c₁ hc₁] at h₁
      by_cases hc₂ : c₂ = c
      · subst hc₂
        rw [hcur'] at h₂
        exact absurd (h₁.trans h₂.symm) (hy c₁)
      · rw [hcur c₂ hc₂] at h₂
        exact hI.unique c₁ c₂ t h₁ h₂
  · change Suspended (update s.pos x q (.proc t)) (update s.pushed x o (.proc t)) t
    by_cases htx : Thread.proc t = x
    · subst htx
      rw [update_self, update_self]
      exact hsusp t rfl
    · rw [update_of_ne htx, update_of_ne htx]
      refine hI.suspended t fun c' h' => ?_
      by_cases hc : c' = c
      · subst hc
        exact htx (h'.symm.trans hx)
      · exact ht c' ((hcur c' hc).trans h')

/-- A step of the thread of a process. -/
lemma Inv.procStep {t : ℕ} (hI : Inv s) (hx : s.cur c = .proc t)
    (hk : Keeps s c (.proc t) lock proc) (hloc : Local (some t) h q o) (hproc : h.proc = some t)
    (hstate : (proc t).state = .running ∨ q.AtSched)
    (hholds : q.HoldsLock → lock (.proc t) = some c) :
    Inv (s.become c (.proc t) h q o lock proc) := by
  have hold := hI.shared c
  rw [hx] at hold
  have hpos : (s.become c (.proc t) h q o lock proc).pos (.proc t) = q := update_self ..
  have hne : Thread.sched c ≠ .proc t := nofun
  refine hI.become hx hk hloc ⟨?_, ?_, ?_, ?_, ?_⟩
  · exact (congrArg Hart.proc (update_self ..)).trans hproc
  · rw [hpos]
    exact hstate
  · rw [hpos]
    exact hholds
  · obtain ⟨k, found, hpos'⟩ := hold.resumed
    exact ⟨k, found, (update_of_ne hne q s.pos).trans hpos'⟩
  · exact (update_of_ne hne o s.pushed).trans hold.pushed

/-- A step of a scheduler. -/
lemma Inv.schedStep (hI : Inv s) (hx : s.cur c = .sched c) (hk : Keeps s c (.sched c) lock proc)
    (hloc : Local none h q o) (hshape : q.SchedShape h.sie o)
    (hproc : (∀ k found, q ≠ .swtch k found ∧ q ≠ .resumed k found) → h.proc = none)
    (htest : ∀ k found, q = .test k found → lock (.proc k) = some c)
    (hswtch : ∀ k found, q = .swtch k found → lock (.proc k) = some c ∧ h.proc = some k ∧
      (proc k).state = .running ∧ ∀ c', s.cur c' ≠ .proc k) :
    Inv (s.become c (.sched c) h q o lock proc) := by
  have hpos : (s.become c (.sched c) h q o lock proc).pos (.sched c) = q := update_self ..
  have hhart : (s.become c (.sched c) h q o lock proc).hart c = h := update_self ..
  have hpushed : (s.become c (.sched c) h q o lock proc).pushed (.sched c) = o :=
    update_self ..
  refine hI.become hx hk hloc ⟨rfl, ?_, ?_, ?_, ?_⟩
  · rw [hpos, hhart, hpushed]
    exact hshape
  · rw [hpos, hhart]
    exact hproc
  · rw [hpos]
    exact htest
  · rw [hpos, hhart]
    exact hswtch

/-- A step of either kind of thread between two plain positions. -/
lemma Inv.plainStep (hI : Inv s) (hx : s.cur c = x) (hk : Keeps s c x lock proc)
    (hrun : ∀ t, (s.proc t).state = .running → (proc t).state = .running)
    (hold : (s.pos x).Plain) (hq : q.Plain) (hloc : Local x.owner h q o)
    (hproc : h.proc = (s.hart c).proc) (hshape : x.owner = none → q.SchedShape h.sie o) :
    Inv (s.become c x h q o lock proc) := by
  have hsh := hI.shared c
  rw [hx] at hsh
  cases x with
  | proc t =>
    have hstate := hsh.state.resolve_right fun h => hold.not_holdsLock h.holdsLock
    exact hI.procStep hx hk hloc (hproc.trans hsh.proc) (Or.inl (hrun t hstate))
      fun h => absurd h hq.not_holdsLock
  | sched d =>
    obtain rfl := hI.cur_sched hx
    have hnone : (s.hart d).proc = none := by
      refine hsh.2.proc fun k found => ⟨fun h => ?_, fun h => ?_⟩
      · rw [h] at hold
        exact hold
      · rw [h] at hold
        exact hold
    refine hI.schedStep hx hk hloc (hshape rfl) (fun _ => hproc.trans hnone) ?_ ?_
    · rintro k found rfl
      exact hq.elim
    · rintro k found rfl
      exact hq.elim

end

end Xv6.Intr
