import Xv6.Fs.Files

/-!
# Crashes of the file system

Writes and truncations are spread over many blocks: inodes, the free map, indirect blocks and data.
A crash may come between any two disk writes, also between those of a recovery.  What the disk means
after the recovery is what it meant after some of the calls: all that had returned, and possibly the
one that was running.
-/

namespace Xv6

open LogState Relation List

variable {s s' : Fs} {op : InodeOp} {d : Disk} {ws : List (ℕ × Block)}

/-- The disk writes of a commit. -/
lemma LogState.commit_disk_eq {l : LogState} (h : CommitReady l) :
    l.commit.disk = writes l.disk l.commitTrace := by
  by_cases hne : l.lh = []
  · rw [commitTrace_nil hne, commit, if_neg (by simp [hne])]
    rfl
  · obtain ⟨p, hp⟩ := commit_eq h hne
    rw [hp, commitTrace_eq h hne]
    rfl

/-- A call has written to the disk only when it committed `l`. -/
structure Commits (s s' : Fs) (l : LogState) : Prop where
  ready : CommitReady l
  start : l.start = s.sb.logstart
  old : l.disk = s.log.disk
  sb : s'.sb = s.sb
  disk : s'.log.disk = writes s.log.disk l.commitTrace
  trace : s'.log.trace = s.log.trace ++ l.commitTrace

lemma commits_transaction {α : Type} {x : FsM α} (h : Idle s)
    (hx : ∀ s₁, InTrans s₁ → s.Same s₁ → wp x (fun _ s₂ => ∃ B, Logs s₁ s₂ B) (fun _ => True) s₁) :
    wp (transaction x) (fun _ s' => ∃ l, Commits s s' l) (fun _ => True) s := by
  have hbegin : wp beginOp (fun _ s₁ => s₁.log.disk = s.log.disk ∧ s₁.log.trace = s.log.trace)
      (fun _ => True) s := by
    simp [beginOp, wp_ite]
  unfold transaction
  refine ((beginOp_spec h).and hbegin).wp.bind ?_
  rintro - s₁ ⟨⟨ht₁, himg, hinode, hsb₁, -⟩, hdisk, htrace⟩
  refine (hx s₁ ht₁ ⟨himg, hinode, hsb₁⟩).bind ?_
  rintro r s₂ ⟨B, hl⟩
  have ht₂ := ht₁.next hl
  have hr := ht₂.ready
  set l : LogState := { s₂.log with outstanding := s₂.log.outstanding - 1 }
  have hready : CommitReady l := ⟨hr.1, hr.2, hr.3, hr.4, hr.5, hr.6⟩
  have hold : l.disk = s.log.disk := (congrArg LogState.disk hl.log).trans hdisk
  have htr : l.trace = s.log.trace := (congrArg LogState.trace hl.log).trans htrace
  have hsb := hl.sb.trans hsb₁
  have hend : wp endOp (fun _ s' => s'.sb = s₂.sb ∧ s'.log = l.finish) (fun _ => True) s₂ := by
    simp [endOp, wp_ite, ht₂.outstanding, l]
  refine hend.bind ?_
  rintro - s' ⟨hsb', hlog⟩
  refine ⟨l, hready, ht₂.start.trans (congrArg _ hsb), hold, hsb'.trans hsb, ?_, ?_⟩
  · rw [hlog, ← hold]
    exact commit_disk_eq hready
  · rw [hlog, ← htr]
    exact (commit_complete hready).2.2.2.2.2

lemma InodeOp.commits (h : Between s) (hs : InodeOp.step s op = some s') : ∃ l, Commits s s' l := by
  unfold InodeOp.step at hs
  split at hs
  case isFalse => cases hs
  case isTrue hok =>
    have hspec : wp op.exec (fun _ s' => ∃ l, Commits s s' l) (fun _ => True) s := by
      cases op with
      | writei ip src off n =>
        simp only [InodeOp.exec, wp_bind, wp_pure]
        refine commits_transaction h.idle fun s₁ ht₁ hs₁ => ?_
        have hok₁ := h.ok.same hs₁
        have hk₁ := hok.1.same hs₁
        refine (writei_spec (hok₁.working hk₁) ht₁.trans (hok₁.noHole_inode hk₁) src hok.2.1
          hok.2.2).mono ?_ fun _ _ => trivial
        intro r s₂ hr
        split at hr
        · exact ⟨[], hr.2 ▸ .refl s₁⟩
        · obtain ⟨r', t, B, -, hw⟩ := hr
          exact ⟨B, hw.toLogs⟩
      | itrunc ip =>
        refine commits_transaction h.idle fun s₁ ht₁ hs₁ => ?_
        exact (itrunc_spec ((h.ok.same hs₁).working (hok.1.same hs₁)) ht₁.trans ht₁.nodup).mono
          (fun _ _ ht => ⟨_, ht.toLogs⟩) fun _ _ => trivial
    split at hs
    case h_1 hrun =>
      obtain rfl := Option.some.inj hs
      exact hspec.of_eq_ok hrun
    case h_2 => cases hs

/-- The file system as `fsinit` finds it after a crash that left the disk `d`, when the log has been
recovered. -/
def Fs.reboot (sb : Superblock) (d : Disk) : Fs where
  log := (boot sb.logstart d).recoverFromLog
  sb := sb

lemma idle_reboot {sb : Superblock} (hsb : sb.Ok) (h : LogOk sb.logstart d) :
    Idle (.reboot sb d) := by
  obtain ⟨p, hp⟩ := recoverFromLog_eq h
  have hhead := h.recovered.2
  rw [hp] at hhead
  refine ⟨⟨hsb, ?_, ?_, ⟨?_, ?_, ?_, ?_, ?_, ?_⟩, ?_⟩, ?_, ?_⟩
  all_goals simp only [Fs.reboot, hp]
  · rfl
  · rfl
  · exact hhead
  · exact fun _ _ => rfl
  · exact Nat.zero_le _
  · exact nodup_nil
  · exact forall_mem_nil _
  · exact forall_mem_nil _
  · exact fun _ _ => rfl
  · rfl
  · rfl

lemma Idle.img_eq (h : Idle s) : s.img = imgOf s.sb s.log.disk := by
  have hsync : s.log.blk = s.log.disk := funext fun b => h.synced b (by simp [h.lh])
  rw [Fs.img, hsync]

/-- The table is empty, so what matters is the image. -/
lemma FsOk.reboot (h : FsOk s) (himg : (Fs.reboot s.sb d).img = s.img) : FsOk (.reboot s.sb d) where
  sb := h.sb
  alloc := himg ▸ h.alloc
  noHole i := himg ▸ h.noHole i
  table := ⟨fun _ => le_rfl, fun _ h => absurd h (lt_irrefl _), fun _ h => absurd h (lt_irrefl _),
    fun _ _ h => absurd h (lt_irrefl _), fun _ h => absurd h (lt_irrefl _),
    fun _ h => absurd h (lt_irrefl _)⟩

lemma Superblock.Ok.imgOf_congr {sb : Superblock} (hsb : sb.Ok) {d d' : Disk}
    (h : (redoLog sb.logstart).SameHome d d') : imgOf sb d = imgOf sb d' := by
  refine Xv6.imgOf_congr hsb fun b hb => h b fun hmem => ?_
  have := hsb.log
  have := hmem.2
  omega

/-- A crash during one call. -/
lemma Commits.crash {l : LogState} (h : Commits s s' l) (hs : Between s) (hs' : Between s')
    (hws : ws <+: l.commitTrace)
    (hd : ReflTransGen (RecoveryCrash s.sb.logstart) (writes s.log.disk ws) d) :
    Between (.reboot s.sb d) ∧ ((Fs.reboot s.sb d).img = s.img ∨ (Fs.reboot s.sb d).img = s'.img) := by
  classical
  have hsb := hs.ok.sb
  rw [prefix_iff_eq_take.mp hws, ← h.old, ← h.start] at hd
  obtain ⟨hsame, -⟩ := recovered_of_crash h.ready hd
  have hok := ((logOk_commit_take h.ready _).recoveryCrashes hd).1
  rw [h.start] at hsame hok
  have hidle := idle_reboot hsb hok
  have himg : (Fs.reboot s.sb d).img = s.img ∨ (Fs.reboot s.sb d).img = s'.img := by
    rw [hidle.img_eq, hs.idle.img_eq, hs'.idle.img_eq, h.sb]
    refine (em (HeadReached l ws.length)).symm.imp (fun hno => ?_) fun hyes => ?_
    · rw [if_neg hno, h.old] at hsame
      exact hsb.imgOf_congr hsame
    · have hdone := (commit_complete h.ready).1
      rw [commit_disk_eq h.ready, h.start, h.old, ← h.disk] at hdone
      rw [if_pos hyes, h.old] at hsame
      exact hsb.imgOf_congr fun b hb => (hsame b hb).trans (hdone b hb).symm
  refine ⟨⟨hidle, ?_⟩, himg⟩
  rcases himg with himg | himg
  · exact hs.ok.reboot himg
  · rw [← h.sb] at himg ⊢
    exact hs'.ok.reboot himg

/-- **The file system survives crashes.**  Writes and truncations have run one after the other, and
the machine crashes during the next one, after any of its disk writes; recoveries crash as well, until
one runs to its end.  Then the disk means what it meant before that call, or after it, and it is again
a file system in which every block has one owner or is free and no file has a hole, so that calls,
and crashes, may go on from there. -/
theorem fs_crash_consistent {s₀ : Fs} {ops : List InodeOp} (h₀ : Between s₀)
    (hrun : run InodeOp.step s₀ ops = some s) (hs : InodeOp.step s op = some s')
    (hws : s.log.trace ++ ws <+: s'.log.trace)
    (hd : ReflTransGen (RecoveryCrash s.sb.logstart) (writes s.log.disk ws) d) :
    Between (.reboot s.sb d) ∧ ((Fs.reboot s.sb d).img = s.img ∨ (Fs.reboot s.sb d).img = s'.img) := by
  have h : Between s := run_invariant (fun _ _ _ => InodeOp.step_between) h₀ hrun
  obtain ⟨l, hl⟩ := InodeOp.commits h hs
  rw [hl.trace, prefix_append_right_inj] at hws
  exact hl.crash h (InodeOp.step_between h hs) hws hd

/-- A crash while the root directory is truncated. -/
theorem fs_crash_consistent_root : ∃ s', InodeOp.step rootFs (.itrunc 0) = some s' ∧
    ∀ ws, ws <+: s'.log.trace → (Fs.reboot rootSb (writes rootDisk ws)).img = rootFs.img ∨
      (Fs.reboot rootSb (writes rootDisk ws)).img = s'.img := by
  have hsome : (InodeOp.step rootFs (.itrunc 0)).isSome := by decide +kernel
  obtain ⟨s', hs⟩ := Option.isSome_iff_exists.mp hsome
  exact ⟨s', hs, fun ws hws =>
    (fs_crash_consistent rootFs_between (run_nil _) hs hws .refl).2⟩

end Xv6
