import Xv6.Log.Sync

/-!
# Who sleeps on the log

`begin_op` waits on `&log` for a commit to finish or for room in the log, `sys_sync` for a commit to
finish.  Both conditions end under `log.lock`, by `end_op` counting an operation out or by the end of
a commit, and both are followed by a wakeup before the lock is released; the header that `commit()`
clears without the lock is covered by `log.committing`.  So the log's code is an instance of the
waiting rule, with a condition for each of the two places that sleep.
-/

namespace Xv6

namespace LogPc

/-- The positions inside the critical section of `log.lock`. -/
@[simp] def holds : LogPc → Bool
  | .bTest | .bPrepare | .bUnlock | .bRelease _ | .lTest .. | .lRelease _ | .eTest _ | .eWake
  | .eRelease | .eUnlock | .cDone | .cWake | .cRelease | .sTest | .sLoop _ | .sPrepare _
  | .sUnlock _ | .sRelease => true
  | _ => false

/-- What a process that sleeps in `begin_op` or `sys_sync` waits out. -/
@[simp] def waits : LogPc → LogShared → Prop
  | .bUnlock, x | .bSleep, x | .bAcquire, x => x.committing = true ∨ x.NoSpace
  | _, x => x.Busy

/-- What the holder of `log.lock` knows. -/
@[simp] def assert : LogPc → LogShared → Prop
  | .bPrepare, x => x.committing = true ∨ x.NoSpace
  | .sPrepare _, x => x.Busy
  | _, _ => True

/-- Where the sleepers still have to be woken. -/
@[simp] def owes : LogPc → Prop
  | .eWake | .cWake => True
  | _ => False

/-- The channel registered when the thread goes to sleep. -/
@[simp] def armed (chan : ℕ) : LogPc → Option ℕ
  | .bUnlock | .bSleep | .sUnlock _ | .sSleep _ => some chan
  | _ => none

/-- What the invariants of the log say of a thread. -/
@[simp] def known (l : LogPc) (x : LogShared) : Prop :=
  (l.commits = true → x.committing = true) ∧ (∀ n, l.target = some n → x.ncommit < n → x.Busy) ∧
    0 ≤ x.outstanding

end LogPc

/-- The annotation of the log's code for those who sleep on `&log`. -/
def logMonitor (chan : ℕ) : Monitor LogShared LogPc where
  chan := chan
  waits := LogPc.waits
  lockInv := fun _ => True
  holds := fun l => l.holds = true
  assert := LogPc.assert
  owes := LogPc.owes
  armed := LogPc.armed chan
  exempt := fun _ => False
  known := LogPc.known

variable {l l' m : LogPc} {x x' : LogShared} {chan : ℕ} {s : Threads LogShared LogPc}

/-- A condition that somebody waits out goes on to hold if the log is not less busy and has not more
room. -/
lemma LogPc.waits_mono (h : l.waits x)
    (hc : x.committing = true → x'.committing = true) (hout : x.outstanding ≤ x'.outstanding)
    (hroom : x'.committing = true ∨ x.lh.length ≤ x'.lh.length) : l.waits x' := by
  have hbusy : x.Busy → x'.Busy := by
    rintro (hb | hb)
    · exact Or.inl (hc hb)
    · exact Or.inr (by omega)
  have hspace : x.committing = true ∨ x.NoSpace → x'.committing = true ∨ x'.NoSpace := by
    rintro (hb | hb)
    · exact Or.inl (hc hb)
    · refine hroom.imp id fun hle => ?_
      have hmul : (x.outstanding + 1) * (MAXOPBLOCKS : ℤ) ≤ (x'.outstanding + 1) * MAXOPBLOCKS :=
        Int.mul_le_mul_of_nonneg_right (by omega) (by decide)
      have hb : (LOGBLOCKS : ℤ) < x.lh.length + (x.outstanding + 1) * MAXOPBLOCKS := hb
      change (LOGBLOCKS : ℤ) < x'.lh.length + (x'.outstanding + 1) * MAXOPBLOCKS
      omega
  cases l with
  | bUnlock | bSleep | bAcquire => exact hspace h
  | _ => exact hbusy h

section

variable (h : LogAct l x l' x')
include h

/-- An action ends a wait only where it comes to owe a wakeup. -/
lemma LogAct.waits (hk : l.known x) (hm : m.waits x ∨ l.owes) : m.waits x' ∨ l'.owes := by
  have hw : m.waits x := by
    rcases hm with hw | ho
    · exact hw
    · cases h <;> exact ho.elim
  obtain ⟨hcom, -, hnonneg⟩ := hk
  cases h with
  | done | more => exact Or.inr trivial
  | last => exact Or.inl (by cases m <;> exact Or.inl rfl)
  | enter => exact Or.inl (LogPc.waits_mono hw id (by dsimp only; omega) (Or.inr le_rfl))
  | add => exact Or.inl (LogPc.waits_mono hw id le_rfl (Or.inr (by simp)))
  | clear => exact Or.inl (LogPc.waits_mono hw id le_rfl (Or.inl (hcom rfl)))
  | _ => exact Or.inl (LogPc.waits_mono hw id le_rfl (Or.inr le_rfl))

/-- An action neither takes nor releases the lock, and does not register. -/
lemma LogAct.holds : l'.holds = l.holds ∧ ∀ chan, l'.armed chan = none := by
  cases h with
  | call x l hcall => rcases hcall with rfl | rfl <;> exact ⟨rfl, fun _ => rfl⟩
  | _ => exact ⟨rfl, fun _ => rfl⟩

/-- A thread registers only where it waits out the condition. -/
lemma LogAct.assert (hk : l.known x) : l'.assert x' := by
  cases h with
  | wait x hw => exact hw
  | syncMore n x hn => exact hk.2.1 n rfl hn
  | call x l hcall => rcases hcall with rfl | rfl <;> trivial
  | _ => trivial

/-- Without the lock an action does not end a wait. -/
lemma LogAct.waits_of_not_holds
    (hk : l.known x) (hl : l.holds = false) (hm : m.waits x) : m.waits x' := by
  rcases h.waits hk (Or.inl hm) with hw | ho
  · exact hw
  · have hl' : l'.holds = false := h.holds.1.trans hl
    cases l' <;> first | exact ho.elim | exact absurd hl' (by simp)

end

/-- The local obligations of the actions. -/
lemma logMonitor_ok_act
    {f : LogShared → LogChoice → Outcome LogShared LogPc} (hl : logCode chan l = .act f) :
    (logMonitor chan).Ok l (.act f) := by
  intro x ch x' l' hk h
  have hact := logAct_of_next hl h
  refine ⟨hact.holds.2 chan, by simp only [logMonitor, hact.holds.1],
    fun _ _ => ⟨hact.assert hk, fun m => hact.waits hk⟩, fun hout => ?_⟩
  have hwaits : ∀ m : LogPc, m.waits x → m.waits x' := fun m =>
    hact.waits_of_not_holds hk (by simpa [logMonitor] using hout)
  refine ⟨id, fun m hm => ?_, hwaits⟩
  cases m with
  | bPrepare => exact hwaits .bAcquire hm
  | sPrepare n => exact hwaits .idle hm
  | _ => exact trivial

lemma logMonitor_ok (chan : ℕ) (l : LogPc) : (logMonitor chan).Ok l (logCode chan l) := by
  cases l with
  | idle | bTest | inOp | lTest | eTest | cTest | cLog | cHead | cInstall | cClear | cErase | cDone
  | sTest | sLoop => exact logMonitor_ok_act rfl
  | _ => simp [logCode, logMonitor, Monitor.Ok]

/-! ## Runs -/

/-- The log right after `initlog`, with nobody asleep on it. -/
structure LogBooted (chan : ℕ) (s : Threads LogShared LogPc) : Prop where
  fresh : LogFresh s
  ncommit : s.sh.ncommit = 0
  lock : s.lock = none
  ctl : ∀ t, s.ctl t = .pc .idle
  asleep : ∀ t, (s.proc t).state = .sleeping → (s.proc t).chan ≠ chan

lemma LogBooted.inv (h : LogBooted chan s) :
    (logMonitor chan).Inv s := by
  refine ⟨fun t => ?_, fun _ => trivial, fun t ht => ?_, fun t l c hl hc => ?_,
    fun t c k l hl => ?_, fun t _ hr => ?_⟩
  · rw [h.ctl t, h.lock]
    simp [logMonitor]
  · rw [h.lock] at ht
    exact absurd ht (by simp)
  · rw [h.ctl t] at hl
    cases hl
    exact absurd hc (by simp [logMonitor])
  · rw [h.ctl t] at hl
    exact absurd hl (by simp)
  · rcases hr.2 with hs | ⟨l, hl, ha⟩
    · exact absurd hr.1 (h.asleep t hs)
    · rw [h.ctl t] at hl
      cases hl
      exact absurd ha (by simp [logMonitor])

/-- What holds in every state of the log's threads: how the commits are counted, and who sleeps
where. -/
structure WaitInv (chan : ℕ) (s : Threads LogShared LogPc) : Prop where
  ok : GroupOk s
  epoch : EpochInv s.sh s.pcs
  wait : (logMonitor chan).Inv s
  asleep : ∀ t, (s.proc t).state = .sleeping → (s.proc t).chan = chan →
    s.pcs t = .bAcquire ∨ ∃ n, s.pcs t = .sLock n

/-- The step lemma for the sleepers. -/
lemma WaitInv.step {s' : Threads LogShared LogPc} {a : ThreadStep LogChoice}
    (h : WaitInv chan s) (hchan : chan ≠ 0) (hs : Threads.step (logCode chan) s a = some s') :
    WaitInv chan s' := by
  refine ⟨h.ok.step hs, h.epoch.step h.ok.1 hs, h.wait.step (logMonitor_ok chan) hchan (fun t => ?_)
    (fun t ch l _ _ hex => hex.elim) hs, fun t ht hc => ?_⟩
  · refine ⟨h.ok.1.committing t, fun n hn => (h.epoch.target t n hn).2, ?_⟩
    rw [h.ok.1.outstanding]
    exact opCount_nonneg _
  · rcases Threads.sleeping_cases hs ht with ⟨hsl, hproc, hctl⟩ | ⟨l, l', -, hi, hctl, -⟩
    · rw [Threads.pcs, hctl]
      exact h.asleep t hsl (hproc ▸ hc)
    · -- The code has two calls of `sleep`.
      rw [Threads.pcs, hctl]
      cases l with
      | bSleep =>
        cases hi
        exact Or.inl rfl
      | sSleep n =>
        cases hi
        exact Or.inr ⟨n, rfl⟩
      | _ => exact absurd hi (by simp [logCode])

lemma LogBooted.waitInv (h : LogBooted chan s) :
    WaitInv chan s where
  ok := h.fresh.ok
  epoch := h.fresh.epoch h.ncommit
  wait := h.inv
  asleep := fun t ht hc => absurd hc (h.asleep t ht)

/-- An idle log has room for an operation. -/
lemma EpochInv.busy_of_noSpace {pcs : ℕ → LogPc} (h : EpochInv x pcs)
    (hg : GroupInv x pcs) (hx : x.committing = true ∨ x.NoSpace) : x.Busy := by
  by_contra hb
  rcases hx with hc | hs
  · exact hb (Or.inl hc)
  · have hnonneg : 0 ≤ x.outstanding := hg.outstanding ▸ opCount_nonneg pcs
    have hout : x.outstanding = 0 := by
      by_contra hne
      exact hb (Or.inr (by omega))
    rw [LogShared.NoSpace, h.empty hb, hout] at hs
    exact absurd hs (by decide)

/-- **Nobody is stranded on the log.**  Whenever `log.lock` is free, a process that sleeps on `&log`
sleeps in `begin_op` or in `sys_sync`; its position is that of the `acquire` after `sleep()`.  In
`begin_op` it does so during a commit or for lack of room, with some operation outstanding in the
second case; in `sys_sync` during a commit or while some operation is outstanding.  So nobody sleeps
on an idle log. -/
theorem log_no_stranded (chan : ℕ) (hchan : chan ≠ 0) (s₀ s : Threads LogShared LogPc)
    (as : List (ThreadStep LogChoice)) (h₀ : LogBooted chan s₀)
    (hrun : run (Threads.step (logCode chan)) s₀ as = some s) (hfree : s.lock = none) :
    (∀ t < NPROC, (s.proc t).state = .sleeping → (s.proc t).chan = chan →
      (s.pcs t = .bAcquire ∨ ∃ n, s.pcs t = .sLock n) ∧
      (s.pcs t = .bAcquire → (s.sh.committing = true ∨
          (s.sh.lh.length : ℤ) + (s.sh.outstanding + 1) * MAXOPBLOCKS > LOGBLOCKS) ∧
        (0 < s.sh.outstanding ∨ s.sh.committing = true)) ∧
      ((∃ n, s.pcs t = .sLock n) → s.sh.committing = true ∨ 0 < s.sh.outstanding)) ∧
    (s.sh.outstanding = 0 → s.sh.committing = false →
      ∀ t < NPROC, ¬((s.proc t).state = .sleeping ∧ (s.proc t).chan = chan)) := by
  have h : WaitInv chan s :=
    run_invariant (fun _ _ _ hu hstep => hu.step hchan hstep) h₀.waitInv hrun
  have hwaits : ∀ t < NPROC, (s.proc t).state = .sleeping → (s.proc t).chan = chan →
      (s.pcs t).waits s.sh := fun t ht hs hc => h.wait.waits_of_sleeping hfree ht hs hc
  have hbusy : ∀ t < NPROC, (s.proc t).state = .sleeping → (s.proc t).chan = chan → s.sh.Busy := by
    intro t ht hs hc
    have hw := hwaits t ht hs hc
    rcases h.asleep t hs hc with hl | ⟨n, hl⟩
    · rw [hl] at hw
      exact h.epoch.busy_of_noSpace h.ok.1 hw
    · rw [hl] at hw
      exact hw
  refine ⟨fun t ht hs hc => ⟨h.asleep t hs hc, fun hl => ⟨?_, (hbusy t ht hs hc).symm⟩,
    fun _ => hbusy t ht hs hc⟩, fun hout hcom t ht ⟨hs, hc⟩ => ?_⟩
  · have hw := hwaits t ht hs hc
    rw [hl] at hw
    exact hw
  · rcases hbusy t ht hs hc with hb | hb
    · rw [hcom] at hb
      exact absurd hb (by decide)
    · omega

lemma freshLog_booted : LogBooted 0x80010000 freshLog where
  fresh := freshLog_fresh
  ncommit := rfl
  lock := rfl
  ctl := fun _ => rfl
  asleep := fun _ h => absurd h (by simp [freshLog])

/-- Process 1 asleep in `sys_sync` during the commit of `twoOps`. -/
theorem log_no_stranded_sync : ∃ s,
    run (Threads.step (logCode 0x80010000)) freshLog
      (syncCalled ++ List.replicate 6 (.run 1 .go)) = some s ∧
    (s.proc 1).state = .sleeping ∧ (s.sh.committing = true ∨ 0 < s.sh.outstanding) := by
  have hrun := run_eq_some_after (Threads.step (logCode 0x80010000)) freshLog
    (syncCalled ++ List.replicate 6 (.run 1 .go)) (by decide +kernel)
  have hsleep : ((after (Threads.step (logCode 0x80010000)) freshLog
      (syncCalled ++ List.replicate 6 (.run 1 .go))).proc 1).state = .sleeping := by decide +kernel
  have h := log_no_stranded 0x80010000 (by decide) freshLog _ _ freshLog_booted hrun
    (by decide +kernel)
  have hsync := (h.1 1 (by decide) hsleep (by decide +kernel)).2.2
  exact ⟨_, hrun, hsleep, hsync ⟨1, by decide +kernel⟩⟩

end Xv6
