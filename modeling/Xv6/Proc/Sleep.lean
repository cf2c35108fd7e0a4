import Xv6.Proc.Slot
import Xv6.Lib.Run

/-!
# Two-phase sleep

`sleep_prepare` registers the caller on a channel and `sleep` goes to sleep only if the
registration still stands; `wakeup` cancels the registration of every slot it finds on its
channel, asleep or not.  Every critical section under a `p->lock` is one step here, and the steps
of any processes may follow each other in any order, so a `wakeup` or `kkill` loop is a sequence
of `wakeup` or `kkill` steps with the steps of other processes in between.

The invariant (`SleepInv`) is that a sleeping slot has a channel.  `no_lost_wakeup` says what the
two phases are for: once a `wakeup` on the registered channel has passed the slot, the process
does not sleep before it registers again.
-/

namespace Xv6

open Function

/-- A critical section under some `p->lock`. -/
inductive SleepStep
  | sleepPrepare (p c : ℕ)  -- process `p` registers for wakeups on channel `c`
  | sleep (p : ℕ)  -- process `p` goes to sleep if still registered
  | wakeup (c q : ℕ)  -- a `wakeup(c)` reaches slot `q`
  | kkill (pid : ℤ) (q : ℕ)  -- a `kkill(pid)` reaches slot `q`
  | yield (p : ℕ)  -- process `p` gives up the CPU
  | schedule (p : ℕ)  -- a scheduler chooses process `p`
  deriving DecidableEq, Repr

/-- One critical section.  Only a running process executes its own sections, `sleep_prepare`
panics on a null channel, and a scheduler chooses runnable processes. -/
def sleepStep (s : ℕ → Proc) : SleepStep → Option (ℕ → Proc)
  | .sleepPrepare p c =>
    if (s p).state = .running ∧ c ≠ 0 then
      some (update s p ((s p).sleepPrepare c))
    else none
  | .sleep p =>
    if (s p).state = .running then some (update s p (s p).sleep) else none
  | .wakeup c q => some (update s q ((s q).wakeup c))
  | .kkill pid q =>
    some (if (s q).pid = pid then update s q (s q).kkill else s)
  | .yield p =>
    if (s p).state = .running then some (update s p (s p).yield) else none
  | .schedule p =>
    if (s p).state = .runnable then some (update s p (s p).schedule) else none

variable {s s' : ℕ → Proc} {a : SleepStep} {p : ℕ} {as : List SleepStep}

/-- The slot `p` before and after a step: it is unchanged, or one of the sections ran on it. -/
lemma sleepStep_slot (h : sleepStep s a = some s') (p : ℕ) :
    s' p = s p ∨
    (∃ c, a = .sleepPrepare p c ∧ (s p).state = .running ∧ c ≠ 0 ∧
      s' p = (s p).sleepPrepare c) ∨
    (a = .sleep p ∧ (s p).state = .running ∧ s' p = (s p).sleep) ∨
    (∃ c, a = .wakeup c p ∧ s' p = (s p).wakeup c) ∨
    s' p = (s p).kkill ∨ s' p = (s p).yield ∨ s' p = (s p).schedule := by
  have hne : ∀ {q : ℕ} {v : Proc}, q ≠ p → update s q v p = s p :=
    fun h => update_of_ne h.symm ..
  cases a with
  | sleepPrepare q c =>
    obtain ⟨⟨hr, hc⟩, rfl⟩ : ((s q).state = .running ∧ c ≠ 0) ∧ _ = s' := by
      simpa [sleepStep] using h
    by_cases hq : q = p
    · subst hq
      exact Or.inr (Or.inl ⟨c, rfl, hr, hc, update_self ..⟩)
    · exact Or.inl (hne hq)
  | sleep q =>
    obtain ⟨hr, rfl⟩ : (s q).state = .running ∧ _ = s' := by simpa [sleepStep] using h
    by_cases hq : q = p
    · subst hq
      exact Or.inr (Or.inr (Or.inl ⟨rfl, hr, update_self ..⟩))
    · exact Or.inl (hne hq)
  | wakeup c q =>
    obtain rfl : _ = s' := Option.some.inj h
    by_cases hq : q = p
    · subst hq
      exact Or.inr (Or.inr (Or.inr (Or.inl ⟨c, rfl, update_self ..⟩)))
    · exact Or.inl (hne hq)
  | kkill pid q =>
    obtain rfl : _ = s' := Option.some.inj h
    split
    · by_cases hq : q = p
      · subst hq
        exact Or.inr (Or.inr (Or.inr (Or.inr (Or.inl (update_self ..)))))
      · exact Or.inl (hne hq)
    · exact Or.inl rfl
  | yield q =>
    obtain ⟨-, rfl⟩ : (s q).state = .running ∧ _ = s' := by simpa [sleepStep] using h
    by_cases hq : q = p
    · subst hq
      exact Or.inr (Or.inr (Or.inr (Or.inr (Or.inr (Or.inl (update_self ..))))))
    · exact Or.inl (hne hq)
  | schedule q =>
    obtain ⟨-, rfl⟩ : (s q).state = .runnable ∧ _ = s' := by simpa [sleepStep] using h
    by_cases hq : q = p
    · subst hq
      exact Or.inr (Or.inr (Or.inr (Or.inr (Or.inr (Or.inr (update_self ..))))))
    · exact Or.inl (hne hq)

/-! ## A sleeping process is registered -/

/-- Every sleeping slot has a channel. -/
def SleepInv (s : ℕ → Proc) : Prop := ∀ p, (s p).state = .sleeping → (s p).chan ≠ 0

lemma SleepInv.step (hi : SleepInv s) (h : sleepStep s a = some s') : SleepInv s' := by
  intro p hp
  obtain heq | ⟨c, -, hr, -, heq⟩ | ⟨-, hr, heq⟩ | ⟨c, -, heq⟩ | heq | heq | heq :=
    sleepStep_slot h p
  · rw [heq] at hp ⊢
    exact hi p hp
  · rw [heq] at hp
    exact absurd (hr.symm.trans hp) (by decide)
  · by_cases hc : (s p).chan = 0
    · rw [heq, Proc.sleep_of_chan_eq_zero hc] at hp
      exact absurd (hr.symm.trans hp) (by decide)
    · rw [heq, Proc.sleep_chan]
      exact hc
  · rw [heq] at hp ⊢
    obtain ⟨hs, hne⟩ := Proc.wakeup_sleeping hp
    rw [Proc.wakeup_of_ne hne]
    exact hi p hs
  · exact absurd (heq ▸ hp) Proc.kkill_state_ne_sleeping
  · exact absurd (heq ▸ hp) (by simp [Proc.yield])
  · exact absurd (heq ▸ hp) (by simp [Proc.schedule])

/-! ## The life of a registration -/

/-- The label registers process `p` again. -/
def IsPrepare (p : ℕ) (a : SleepStep) : Prop := ∃ c, a = .sleepPrepare p c

/-- Until a process registers again its channel stays what it is or is cleared. -/
lemma chan_step (hnot : ¬IsPrepare p a)
    (h : sleepStep s a = some s') : (s' p).chan = (s p).chan ∨ (s' p).chan = 0 := by
  obtain heq | ⟨c, ha, -, -, -⟩ | ⟨-, -, heq⟩ | ⟨c, -, heq⟩ | heq | heq | heq :=
    sleepStep_slot h p
  · exact Or.inl (by rw [heq])
  · exact absurd ⟨c, ha⟩ hnot
  · exact Or.inl (by rw [heq, Proc.sleep_chan])
  · rw [heq]
    exact Proc.wakeup_chan_eq_or
  · exact Or.inl (by rw [heq, Proc.kkill_chan])
  · exact Or.inl (by rw [heq]; rfl)
  · exact Or.inl (by rw [heq]; rfl)

lemma chan_run (hnot : ∀ a ∈ as, ¬IsPrepare p a) (h : run sleepStep s as = some s') :
    (s' p).chan = (s p).chan ∨ (s' p).chan = 0 := by
  refine run_invariant_of_mem (I := fun t => (t p).chan = (s p).chan ∨ (t p).chan = 0)
    ?_ (Or.inl rfl) h
  intro t a ha t' ht hstep
  rcases chan_step (hnot a ha) hstep with heq | hzero
  · rwa [heq]
  · exact Or.inr hzero

/-- Once the registration has been cancelled it stays so until the process registers again. -/
lemma chan_run_eq_zero (hnot : ∀ a ∈ as, ¬IsPrepare p a) (hs : (s p).chan = 0)
    (h : run sleepStep s as = some s') : (s' p).chan = 0 := by
  rcases chan_run hnot h with heq | hzero
  · exact heq.trans hs
  · exact hzero

/-- **No wakeup is lost.**  In every state reachable from a table without sleeping processes, a
sleeping process has a channel.  Moreover let process `p` register on `c` and let a `wakeup(c)`
reach its slot before it registers again.  If `p` was already asleep the wakeup made it runnable;
and until `p` registers again it is not asleep, and a call of `sleep` returns without
sleeping. -/
theorem no_lost_wakeup (s₀ s : ℕ → Proc) (h₀ : ∀ p, (s₀ p).state ≠ .sleeping)
    (as : List SleepStep) (hs : run sleepStep s₀ as = some s) :
    (∀ p, (s p).state = .sleeping → (s p).chan ≠ 0) ∧
    ∀ (p c : ℕ) (s₁ s₂ s₃ : ℕ → Proc) (as₁ : List SleepStep),
      sleepStep s (.sleepPrepare p c) = some s₁ →
      run sleepStep s₁ as₁ = some s₂ → (∀ a ∈ as₁, ¬IsPrepare p a) →
      sleepStep s₂ (.wakeup c p) = some s₃ →
      ((s₂ p).state = .sleeping → (s₃ p).state = .runnable) ∧
      ∀ (s₄ : ℕ → Proc) (as₂ : List SleepStep),
        run sleepStep s₃ as₂ = some s₄ → (∀ a ∈ as₂, ¬IsPrepare p a) →
        (s₄ p).state ≠ .sleeping ∧
        ∀ s₅, sleepStep s₄ (.sleep p) = some s₅ → s₅ = s₄ := by
  have hinv : ∀ {t t' : ℕ → Proc} {bs : List SleepStep},
      SleepInv t → run sleepStep t bs = some t' → SleepInv t' :=
    fun ht hrun => run_invariant (fun _ _ _ hi hstep => hi.step hstep) ht hrun
  have hi : SleepInv s := hinv (fun p hp => absurd hp (h₀ p)) hs
  refine ⟨hi, ?_⟩
  intro p c s₁ s₂ s₃ as₁ hprep hrun₁ hnot₁ hwake
  -- Between the registration and the wakeup the channel is `c`, or it is cleared.
  have hreg : (s₁ p).chan = c := by
    obtain ⟨-, rfl⟩ : ((s p).state = .running ∧ c ≠ 0) ∧ _ = s₁ := by
      simpa [sleepStep] using hprep
    simp [Proc.sleepPrepare]
  have hi₂ : SleepInv s₂ := hinv (hi.step hprep) hrun₁
  have hi₃ : SleepInv s₃ := hi₂.step hwake
  have hs₃ : s₃ p = (s₂ p).wakeup c := by
    obtain rfl : _ = s₃ := Option.some.inj hwake
    exact update_self ..
  have hwoken : (s₃ p).chan = 0 := by
    rw [hs₃]
    rcases chan_run hnot₁ hrun₁ with heq | hzero
    · simp [Proc.wakeup, heq.trans hreg]
    · rcases Proc.wakeup_chan_eq_or (p := s₂ p) (c := c) with h | h
      · exact h.trans hzero
      · exact h
  refine ⟨fun hsleep => ?_, fun s₄ as₂ hrun₂ hnot₂ => ?_⟩
  · have hchan : (s₂ p).chan = c := by
      rcases chan_run hnot₁ hrun₁ with heq | hzero
      · exact heq.trans hreg
      · exact absurd hzero (hi₂ p hsleep)
    rw [hs₃]
    simp [Proc.wakeup, hchan, hsleep]
  · have hzero : (s₄ p).chan = 0 := chan_run_eq_zero hnot₂ hwoken hrun₂
    refine ⟨fun hsleep => hinv hi₃ hrun₂ p hsleep hzero, fun s₅ hsleep => ?_⟩
    obtain ⟨-, rfl⟩ : (s₄ p).state = .running ∧ _ = s₅ := by simpa [sleepStep] using hsleep
    rw [Proc.sleep_of_chan_eq_zero hzero, update_eq_self]

/-- Two running processes: process 0 registers on channel 8, process 1 wakes the channel, and
process 0 then does not sleep. -/
theorem no_lost_wakeup_two_processes :
    let s : ℕ → Proc := fun _ => { state := .running }
    ∃ s₁ s₃ s₅, sleepStep s (.sleepPrepare 0 8) = some s₁ ∧
      sleepStep s₁ (.wakeup 8 0) = some s₃ ∧ sleepStep s₃ (.sleep 0) = some s₅ ∧
      s₅ = s₃ ∧ (s₅ 0).state ≠ .sleeping := by
  intro s
  refine ⟨_, _, _, rfl, rfl, rfl, ?_⟩
  have h := (no_lost_wakeup s s (fun _ => by decide) [] rfl).2 0 8 _ _ _ [] rfl rfl
    (by simp) rfl
  have h' := h.2 _ [] rfl (by simp)
  exact ⟨h'.2 _ rfl, by rw [h'.2 _ rfl]; exact h'.1⟩

end Xv6
