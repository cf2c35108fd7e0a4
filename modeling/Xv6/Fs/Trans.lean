import Xv6.Fs.Content
import Xv6.Log.Crash

/-!
# Transactions

What holds of the log while file system calls run one at a time, and the brackets `begin_op` and
`end_op`.  Inside a bracket the invariant is kept by everything that `Logs` describes; a bracket that
ends commits, which changes no block outside the log.
-/

namespace Xv6

/-- The state of the log while calls run one at a time. -/
structure FsLog (s : Fs) : Prop where
  sb : s.sb.Ok
  start : s.log.start = s.sb.logstart
  committing : s.log.committing = false
  ready : CommitReady s.log
  synced : ∀ b ∉ s.log.lh, s.log.blk b = s.log.disk b

/-- No transaction is running. -/
structure Idle (s : Fs) : Prop extends FsLog s where
  outstanding : s.log.outstanding = 0
  lh : s.log.lh = []

/-- A transaction is running. -/
structure InTrans (s : Fs) : Prop extends FsLog s where
  outstanding : s.log.outstanding = 1

lemma Superblock.Ok.home_notMem {sb : Superblock} (hsb : sb.Ok) {b : ℕ} (hb : sb.Home b) :
    b ∉ logArea sb.logstart := fun h => by
  have := hsb.log
  have := h.2
  have := hb.1
  omega

namespace InTrans

variable {s s' : Fs} {B : List ℕ}

lemma trans (h : InTrans s) : 1 ≤ s.log.outstanding := by rw [h.outstanding]

lemma nodup (h : InTrans s) : s.log.lh.Nodup := h.ready.nodup

/-- Code in the transaction keeps the invariant. -/
lemma next (h : InTrans s) (hl : Logs s s' B) : InTrans s' := by
  have hstart : s'.log.start = s.log.start := by rw [hl.log]
  have hdisk : s'.log.disk = s.log.disk := by rw [hl.log]
  have hcommitting : s'.log.committing = s.log.committing := by rw [hl.log]
  have hhome : ∀ b ∈ s'.log.lh, b ∉ logArea s'.log.start := fun b hb => by
    rw [hstart]
    rcases hl.lh b hb with hb | hb
    · exact h.ready.home b hb
    · rw [h.start]
      exact h.sb.home_notMem (hl.home b hb)
  have hsynced : ∀ b ∉ s'.log.lh, s'.log.blk b = s'.log.disk b := fun b hb => by
    rw [hl.blk b hb, hdisk, h.synced b fun hb' => hb (hl.keep b hb')]
  refine ⟨⟨hl.sb ▸ h.sb, ?_, ?_, ⟨?_, ?_, ?_, ?_, hhome, ?_⟩, hsynced⟩, ?_⟩
  · rw [hstart, hl.sb, h.start]
  · rw [hcommitting, h.committing]
  · rw [hdisk, hstart]
    exact h.ready.clean
  · exact fun b hb => hsynced b fun hb' => hhome b hb' hb
  · exact hl.bound h.ready.length_le
  · exact hl.nodup h.ready.nodup
  · intro b hb
    rcases hl.lh b hb with hb | hb
    · exact h.ready.lt b hb
    · exact lt_of_lt_of_le (hl.home b hb).2 h.sb.size
  · rw [hl.outstanding, h.outstanding]

end InTrans

/-- A transaction begins. -/
lemma beginOp_spec {s : Fs} (h : Idle s) : Returns beginOp (fun _ s' => InTrans s' ∧ s'.img = s.img ∧
    s'.inode = s.inode ∧ s'.sb = s.sb ∧ s'.log.lh = []) s := by
  unfold beginOp
  simp only [Returns, wp_bind, wp_get]
  rw [wp_ite_neg (by simp [h.committing]), wp_ite_neg (by simp [h.lh, h.outstanding, MAXOPBLOCKS, LOGBLOCKS]),
    wp_modify]
  have hr := h.ready
  refine ⟨⟨⟨h.sb, h.start, h.committing, ⟨hr.1, hr.2, hr.3, hr.4, hr.5, hr.6⟩, h.synced⟩, ?_⟩, rfl,
    rfl, rfl, h.lh⟩
  change s.log.outstanding + 1 = 1
  rw [h.outstanding]
  rfl

/-- The image depends on the blocks after the log. -/
lemma imgOf_congr {sb : Superblock} {blk blk' : ℕ → Block} (hsb : sb.Ok)
    (h : ∀ b, sb.inodestart ≤ b → blk' b = blk b) : imgOf sb blk' = imgOf sb blk := by
  have hlt := hsb.inodestart_lt
  have hmap := hsb.map
  ext1
  · funext i
    have hle : sb.inodestart ≤ sb.iblock i := Nat.le_add_left ..
    simp only [imgOf]
    rw [h _ hle]
  · funext b
    have hle : sb.bmapstart ≤ sb.bblock b := Nat.le_add_left ..
    simp only [imgOf]
    rw [h _ (by omega)]
  · funext b
    simp only [imgOf]
    split
    · rw [h _ (by omega)]
    · rfl

lemma LogState.commit_frame {l : LogState} (h : CommitReady l) : l.commit.start = l.start ∧
    l.commit.outstanding = l.outstanding ∧ l.commit.committing = l.committing := by
  by_cases hne : l.lh = []
  · rw [show l.commit = l by simp [commit, hne]]
    exact ⟨rfl, rfl, rfl⟩
  · obtain ⟨p, hp⟩ := commit_eq h hne
    rw [hp]
    exact ⟨rfl, rfl, rfl⟩

/-- After a commit the cache agrees with the disk. -/
lemma commit_synced {l : LogState} (h : CommitReady l) (hs : ∀ b ∉ l.lh, l.blk b = l.disk b) (b : ℕ) :
    l.commit.blk b = l.commit.disk b := by
  obtain ⟨hdisk, -, harea, hblk, -, -⟩ := commit_complete h
  by_cases hb : b ∈ logArea l.start
  · exact harea b hb
  · rw [hblk b hb, hdisk b hb]
    by_cases hmem : b ∈ l.lh
    · have hnd : (l.trans.map Prod.fst).Nodup := by
        rw [map_fst_trans]
        exact h.nodup
      have hw : (b, l.blk b) ∈ l.trans := List.mem_map_of_mem hmem
      exact (writes_of_mem hnd hw).symm
    · rw [hs b hmem, writes_of_notMem]
      rintro w hw rfl
      obtain ⟨c, hc, rfl⟩ := List.mem_map.mp hw
      exact hmem hc

/-- The transaction ends, and commits. -/
lemma endOp_spec {s : Fs} (h : InTrans s) : Returns endOp (fun _ s' => Idle s' ∧ s'.img = s.img ∧
    s'.inode = s.inode ∧ s'.sb = s.sb) s := by
  unfold endOp
  simp only [Returns, wp_bind, wp_modify, wp_get]
  rw [wp_ite_neg (by simp [h.committing]), wp_ite_pos (by simp [h.outstanding]), wp_modify]
  have hr := h.ready
  set l : LogState := { s.log with outstanding := s.log.outstanding - 1 } with hl
  have hready : CommitReady l := ⟨hr.1, hr.2, hr.3, hr.4, hr.5, hr.6⟩
  have hsynced := commit_synced hready h.synced
  obtain ⟨hstart, hout, hcommitting⟩ := LogState.commit_frame hready
  obtain ⟨-, hclean, -, hblk, hlh, -⟩ := commit_complete hready
  have hlh' : l.finish.lh = [] := hlh
  have hstart' : l.finish.start = l.start := hstart
  refine ⟨⟨⟨h.sb, hstart.trans h.start, hcommitting.trans h.committing, ?_, fun b _ => hsynced b⟩,
    hout.trans ?_, hlh⟩, ?_, rfl, rfl⟩
  · refine ⟨?_, fun b _ => hsynced b, ?_, ?_, ?_, ?_⟩
    · change headN (l.commit.disk l.commit.start) = 0
      rw [hstart]
      exact hclean
    all_goals simp only [hlh']
    · exact Nat.zero_le _
    · exact List.nodup_nil
    · exact fun b hb => absurd hb List.not_mem_nil
    · exact fun b hb => absurd hb List.not_mem_nil
  · change s.log.outstanding - 1 = 0
    rw [h.outstanding]
    rfl
  · refine imgOf_congr h.sb fun b hb => hblk b fun harea => ?_
    have hb' : s.sb.inodestart ≤ b := hb
    have := h.sb.log
    have := harea.2
    have hls : l.start = s.sb.logstart := h.start
    omega

/-- A call in a transaction of its own. -/
def transaction {α : Type} (x : FsM α) : FsM α := do
  beginOp
  let r ← x
  endOp
  return r

end Xv6
