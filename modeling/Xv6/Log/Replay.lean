import Xv6.Log.Sync

/-!
# What a crash leaves of a run

The log lets many system calls write into one transaction, and its commits write each block twice.
To the user of the disk it is a disk with a single operation, which writes a whole transaction:
however often the machine crashes, also while it recovers, the blocks outside the log are those that
`replay` computes from the first `n` transactions, where `n` counts all commits that had finished
and possibly the one that was running.
-/

namespace Xv6

open LogState

variable {x x' : LogShared} {l l' : LogPc} {chan start : ℕ} {s s' : Threads LogShared LogPc}
  {a : ThreadStep LogChoice}

/-- The disk is written to during a commit only. -/
lemma LogAct.base_eq (h : LogAct l x l' x') (hne : l.commits = true → x.commits ≠ []) :
    x'.base = x.base := by
  cases h with
  | log | head | install | erase =>
    obtain ⟨st, cs, hcs⟩ := List.exists_cons_of_ne_nil (hne rfl)
    simp [LogShared.base, hcs]
  | last => cases hc : x.commits <;> simp [LogShared.base, hc]
  | _ => rfl

lemma LogInv.base_step (h : LogInv start s) (hs : Threads.step (logCode chan) s a = some s') :
    s'.sh.base = s.sh.base := by
  refine (Threads.step_cases hs).rule (J := fun x _ => x.base = s.sh.base) rfl (fun _ _ _ _ => rfl)
    fun t _ f ch l' _ hf hfx => ?_
  refine (logAct_of_next hf hfx).base_eq fun hc hnil => ?_
  obtain ⟨st, hst, -⟩ := h.ok.1.commit t hc
  simp [hnil] at hst

/-- **A crash loses whole transactions only.**  Any number of processes run operations on the log
until the machine crashes, with the disk as it is at that moment, and recoveries crash as well,
until one runs to its end.  Its disk is the first one with the transactions of the first `n` commits
written to it, for an `n` that leaves out at most the commit that was running.  An operation that
had ended has logged all its blocks for one transaction, which has them all if it is among the `n`. -/
theorem crash_loses_whole_transactions (chan start : ℕ) (s₀ s : Threads LogShared LogPc)
    (as : List (ThreadStep LogChoice)) (h₀ : LogMounted start s₀)
    (hhome : ∀ a ∈ as, HomeWrite start a) (hrun : run (Threads.step (logCode chan)) s₀ as = some s)
    (d : Disk) (hd : Relation.ReflTransGen (RecoveryCrash start) s.sh.disk d) :
    headN ((boot start d).recoverFromLog.disk start) = 0 ∧
    ∃ n, s.sh.ncommit ≤ n ∧ n ≤ s.sh.commits.length ∧ s.sh.commits.length ≤ s.sh.ncommit + 1 ∧
      (∀ b ∉ logArea start, (boot start d).recoverFromLog.disk b =
        replay s₀.sh.disk (s.sh.commits.take n) b) ∧
      ∀ op ∈ s.sh.ended, (∀ w ∈ op.writes, w.2 = op.epoch) ∧ (op.epoch < n →
        ∃ st, (s.sh.commits.take n)[op.epoch]? = some st ∧ ∀ w ∈ op.writes, w.1 ∈ st.lh) := by
  obtain ⟨h, hbase⟩ : LogInv start s ∧ s.sh.base = s₀.sh.disk := by
    refine run_invariant_of_mem (I := fun s => LogInv start s ∧ s.sh.base = s₀.sh.disk)
      (fun s a ha s' hi hs => ⟨hi.1.step (hhome a ha) hs, (hi.1.base_step hs).trans hi.2⟩)
      ⟨h₀.inv, ?_⟩ hrun
    simp [LogShared.base, h₀.fresh.commits]
  obtain ⟨hhead, n, hlo, hhi, hsame⟩ := h.disk.recovered h.ok.1 h.epoch hd
  have hcount : s.sh.commits.length ≤ s.sh.ncommit + 1 := by
    rw [h.epoch.count]
    split <;> omega
  refine ⟨hhead, n, hlo, hhi, hcount, hbase ▸ hsame, fun op hop => ?_⟩
  rcases h.ok.1.ended op hop with ⟨-, hepoch, hw⟩ | ⟨st, hst, hw⟩
  · exact ⟨fun w hmem => (hw w hmem).1, fun hlt => by omega⟩
  · refine ⟨fun w hmem => (hw w hmem).1, fun hlt => ⟨st, ?_, fun w hmem => (hw w hmem).2⟩⟩
    rw [List.getElem?_take_of_lt hlt, hst]

/-- A crash while the commit of `twoOps` is running, with one block installed and the other one not. -/
theorem crash_loses_whole_transactions_twoOps : ∃ s,
    run (Threads.step (logCode 0x80010000)) freshLog (twoOps ++ List.replicate 6 (.run 0 .go)) =
      some s ∧ (s.sh.disk 50 0, s.sh.disk 51 0) = (7, 0) ∧
    ∃ n ≤ 1, ∀ b ∈ [50, 51], (boot 2 s.sh.disk).recoverFromLog.disk b =
      replay freshLog.sh.disk (s.sh.commits.take n) b := by
  have hrun : (run (Threads.step (logCode 0x80010000)) freshLog
      (twoOps ++ List.replicate 6 (.run 0 .go))).map
      (fun s => ((s.sh.disk 50 0, s.sh.disk 51 0), s.sh.commits.length)) = some ((7, 0), 1) := by
    decide +kernel
  obtain ⟨s, hs, h⟩ := Option.map_eq_some_iff.mp hrun
  obtain ⟨hbytes, hone⟩ := Prod.mk.inj h
  obtain ⟨-, n, -, hhi, -, hdisk, -⟩ := crash_loses_whole_transactions 0x80010000 2 freshLog s _
    freshLog_mounted (by decide) hs _ .refl
  refine ⟨s, hs, hbytes, n, by omega, fun b hb => hdisk b fun harea => ?_⟩
  have hle : b ≤ 2 + LOGBLOCKS := harea.2
  rw [show LOGBLOCKS = 30 from rfl] at hle
  simp only [List.mem_cons, List.not_mem_nil, or_false] at hb
  omega

end Xv6
