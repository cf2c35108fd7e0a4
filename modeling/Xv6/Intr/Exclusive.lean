import Xv6.Intr.Nesting

/-!
# A process runs on one CPU

No two CPUs run the same process, however their schedulers, interrupts, `yield` and `sleep` are
interleaved, and the kernel stack of a process is switched to only after it was left.  Only the
two calls of `swtch` change the thread of a CPU; the lock of the process is held across both.
-/

namespace Xv6.Intr

open Function Option

variable {s s' : Sys} {c : ℕ} {x : Thread}

/-- The context of process `t` was saved: in `sched`, with what `sched` keeps of the interrupts, or
by `allocproc`. -/
def SwitchedOut (q : Pos) (t : ℕ) : Prop := q = .forkret ∨ ∃ f b ret, q = .call f (.back t b) b ret

lemma Inv.switchedOut (hI : Inv s) {t : ℕ} (ht : ∀ c, s.cur c ≠ .proc t) :
    SwitchedOut (s.pos (.proc t)) t := by
  rcases (hI.suspended t ht).back with ⟨f, b, ret, hq, -⟩ | ⟨hq, -⟩
  · exact Or.inr ⟨f, b, ret, hq⟩
  · exact Or.inl hq

/-! ## What changes the thread of a CPU -/

@[grind =] lemma popOff_cur (q : Pos) : (s.popOff c x q).cur = s.cur := by
  unfold Sys.popOff
  split <;> rfl

@[grind =] lemma unlock_cur (k : Spinlock) (q : Pos) : (s.unlock c x k q).cur = s.cur := by
  unfold Sys.unlock
  split <;> rfl

lemma withProc_cur {next : Hart → ℕ → Option Sys} (hs : s.withProc c next = some s')
    (hnext : ∀ h p, next h p = some s' → s'.cur = s.cur) : s'.cur = s.cur := by
  unfold Sys.withProc at hs
  split at hs
  case h_1 => exact some.inj hs ▸ rfl
  case h_2 h _ =>
    obtain ⟨p, -, hp⟩ := bind_eq_some_iff.mp hs
    exact hnext h p hp

lemma cur_of_op {q : Pos} {o : Op} (hs : s.op c x q o = some s') : s'.cur = s.cur := by
  cases o with
  | _ => grind [Sys.op, Sys.setHart, Sys.setPos, Sys.setProc, Sys.pushOff, Sys.setPushed]

/-- Only `scheduler` and `sched` call `swtch`. -/
lemma cur_of_go (hs : s.go c x = some s') (hcur : s'.cur ≠ s.cur) :
    (∃ k found, s.pos x = .swtch k found) ∨
      ∃ f p sie ret, s.pos x = .call f (.sched p) sie ret := by
  rw [Sys.go] at hs
  cases hpos : s.pos x with
  | swtch k found => exact Or.inl ⟨k, found, rfl⟩
  | forkret =>
    rw [hpos] at hs
    exact absurd (withProc_cur hs fun h p hp => some.inj hp ▸ unlock_cur _ _) hcur
  | call f st sie ret =>
    simp only [hpos] at hs
    cases st with
    | sched p => exact Or.inr ⟨f, p, sie, ret, rfl⟩
    | enter =>
      rw [Sys.call] at hs
      exact absurd (withProc_cur hs fun h p hp => some.inj hp ▸ rfl) hcur
    | locked p => cases f with
      | _ => grind [Sys.call, Sys.setPos, Sys.setProc]
    | _ => grind [Sys.call, Sys.spin, Sys.setHart, Sys.setPos, Sys.setProc, Sys.setLock, Sys.panic,
        Sys.pushOff, Sys.setPushed]
  | _ => grind [Sys.spin, Sys.setHart, Sys.setPos, Sys.setProc, Sys.setLock, Sys.panic, Sys.pushOff,
      Sys.setPushed]

/-- `scheduler` switches to process `t`. -/
structure Resumes (s s' : Sys) (c t : ℕ) : Prop where
  before : s.cur c = .sched c
  after : s'.cur = update s.cur c (.proc t)
  idle : ∀ c', s.cur c' ≠ .proc t
  saved : SwitchedOut (s.pos (.proc t)) t
  running : (s.proc t).state = .running
  lock : s.lock (.proc t) = some c ∧ s'.lock = s.lock

/-- `sched` switches from process `t` to the scheduler of the CPU. -/
structure Leaves (s s' : Sys) (c t : ℕ) : Prop where
  before : s.cur c = .proc t
  after : s'.cur = update s.cur c (.sched c)
  saved : SwitchedOut (s'.pos (.proc t)) t
  stopped : (s'.proc t).state ≠ .running
  lock : s.lock (.proc t) = some c ∧ s'.lock = s.lock

lemma Inv.resumes (hI : Inv s) {k : ℕ} {found : Bool} (hpos : s.pos (s.cur c) = .swtch k found)
    (hs : s.go c (s.cur c) = some s') : Resumes s s' c k := by
  have hok := (hI.loc c).ok
  rw [hpos] at hok
  have hx := hI.eq_sched rfl hok
  have hsh := hI.shared c
  rw [hx] at hpos hsh
  obtain ⟨hlock, -, hrun, hidle⟩ := hsh.2.swtch k found hpos
  rw [Sys.go, hx, hpos] at hs
  obtain rfl := some.inj hs
  exact ⟨hx, rfl, hidle, hI.switchedOut hidle, hrun, hlock, rfl⟩

lemma Inv.leaves (hI : Inv s) (hI' : Inv s') {f : Fn} {p : ℕ} {sie : Bool} {ret : Pos}
    (hpos : s.pos (s.cur c) = .call f (.sched p) sie ret) (hs : s.go c (s.cur c) = some s')
    (hcur : s'.cur ≠ s.cur) : Leaves s s' c p := by
  obtain ⟨t, hx, hp, -, hname, -⟩ := hI.owner_of_call rfl hpos
  obtain rfl : t = p := some.inj hname
  obtain ⟨i, -, hwith⟩ := hI.withProc_eq rfl hp
  rw [Sys.go, hpos] at hs
  simp only [Sys.call, Sys.sched, hwith] at hs
  split_ifs at hs with hlock hnoff hrun hsie
  · exact absurd (some.inj hs ▸ rfl) hcur
  · exact absurd (some.inj hs ▸ rfl) hcur
  · exact absurd (some.inj hs ▸ rfl) hcur
  · exact absurd (some.inj hs ▸ rfl) hcur
  · obtain rfl := some.inj hs
    refine ⟨hx, rfl, hI'.switchedOut fun c' => ?_, hrun, not_not.mp hlock, rfl⟩
    -- it was on this CPU only, and the CPU has gone on to its scheduler
    change update s.cur c (.sched c) c' ≠ .proc t
    by_cases hc : c' = c
    · rw [hc, update_self]
      simp
    · rw [update_of_ne hc]
      exact fun h => hc (hI.unique c' c t h hx)

/-- **A process runs on one CPU.**  At every point of every run of `n` CPUs, no two of them run the
same process; one that runs a process has it in `c->proc`, and the process is `RUNNING` or its lock is
held by that CPU.  A CPU changes its thread in two ways: from its scheduler to a `RUNNING` process
that no CPU runs, and from a process whose state is no longer `RUNNING` to its scheduler.  Both happen
with the lock of the process held by the CPU, and in between the saved context is left alone. -/
theorem process_runs_on_one_cpu (n : ℕ) (p : ℕ → Proc) {as : List (ℕ × Act)}
    (h : run (Sys.step n) (Sys.boot p) as = some s) :
    (∀ c c' t, s.cur c = .proc t → s.cur c' = .proc t → c = c') ∧
    (∀ c t, s.cur c = .proc t → (s.hart c).proc = some t ∧
      ((s.proc t).state = .running ∨ s.lock (.proc t) = some c)) ∧
    ∀ c a s', Sys.step n s (c, a) = some s' →
      (∀ t, s.cur c ≠ .proc t → s'.pos (.proc t) = s.pos (.proc t)) ∧
      (s'.cur = s.cur ∨ ∃ t, Resumes s s' c t ∨ Leaves s s' c t) := by
  have hI : Inv s := run_invariant (fun _ _ _ hI hs => hI.step hs) Inv.boot h
  refine ⟨hI.unique, fun c t ht => ?_, fun c a s' hs => ⟨fun t ht => ?_, ?_⟩⟩
  · have hsh := hI.shared c
    rw [ht] at hsh
    exact ⟨hsh.proc, hsh.state.imp_right fun hat => hsh.holds hat.holdsLock⟩
  · exact (hI.moves hs).pos_of_ne _ fun h => ht h.symm
  · by_cases hcur : s'.cur = s.cur
    · exact Or.inl hcur
    · right
      rcases step_cases hs with hgo | ⟨o, -, hop⟩ | ⟨-, rfl⟩
      · rcases cur_of_go hgo hcur with ⟨k, found, hpos⟩ | ⟨f, q, sie, ret, hpos⟩
        · exact ⟨k, Or.inl (hI.resumes hpos hgo)⟩
        · exact ⟨q, Or.inr (hI.leaves (hI.step hs) hpos hgo hcur)⟩
      · exact absurd (cur_of_op hop) hcur
      · exact absurd rfl hcur

/-- CPU 0 of two has gone through its scheduler up to process 0. -/
theorem process_runs_on_one_cpu_first :
    ∃ s, run (Sys.step 2) (Sys.boot fun _ => { state := .runnable })
        (List.replicate 6 (0, .go)) = some s ∧ s.cur 0 = .proc 0 ∧
      ∀ c, s.cur c = .proc 0 → c = 0 := by
  obtain ⟨s, hs⟩ : ∃ s, run (Sys.step 2) (Sys.boot fun _ => { state := .runnable })
      (List.replicate 6 (0, .go)) = some s := ⟨_, rfl⟩
  have hcur : s.cur 0 = .proc 0 := by
    obtain rfl := some.inj hs
    rfl
  exact ⟨s, hs, hcur, fun c hc => (process_runs_on_one_cpu 2 _ hs).1 c 0 0 hc hcur⟩

end Xv6.Intr
