import Xv6.Log.Crash
import Xv6.Log.GroupCommit

/-!
# `sys_sync` as a durability barrier

`sys_sync` counts commits: if the log is busy it waits for `log.ncommit` to go up once.  That the
commit it waits for is the right one rests on the invariant `EpochInv`: an operation that has ended
and is not yet in a commit leaves some other operation outstanding, and a busy log goes through a
commit before it is idle again.

The second half follows the disk.  It is always the disk that the last commit left, with a part of
the running commit on top (`DiskInv`), so a block that a finished commit has installed keeps these
contents, or those of a later commit, in every later state and after every crash.
-/

namespace Xv6

open Function List

open LogState (boot)

/-! ## Counting commits -/

/-- The value of `log.ncommit` that a `sys_sync` waits for. -/
@[simp] def LogPc.target : LogPc → Option ℕ
  | .sLoop n | .sPrepare n | .sUnlock n | .sSleep n | .sLock n => some n
  | _ => none

/-- The log has something to commit, or is committing. -/
def LogShared.Busy (x : LogShared) : Prop := x.committing = true ∨ 0 < x.outstanding

/-- How the commits are counted, and when the log is busy. -/
structure EpochInv (x : LogShared) (pcs : ℕ → LogPc) : Prop where
  count : x.commits.length = x.ncommit + if x.committing then 1 else 0
  ended : ∀ op ∈ x.ended, op.epoch = x.commits.length → 0 < x.outstanding
  empty : ¬x.Busy → x.lh = []
  commits : x.committing = true → ∃ t, (pcs t).commits = true
  target : ∀ t n, (pcs t).target = some n → n ≤ x.ncommit + 1 ∧ (x.ncommit < n → x.Busy)

lemma opCount_nonneg (pcs : ℕ → LogPc) : 0 ≤ opCount pcs :=
  Finset.sum_nonneg fun t _ => by split <;> decide

variable {x x' : LogShared} {s s' : Threads LogShared LogPc} {l l' : LogPc} {chan : ℕ}
  {a : ThreadStep LogChoice} {E : List LogOp}

/-- The operations that have ended were admitted no later than now. -/
lemma GroupInv.ended_epoch_le {pcs : ℕ → LogPc} (h : GroupInv x pcs) {op : LogOp}
    (hop : op ∈ x.ended) : op.epoch ≤ x.commits.length := by
  rcases h.ended op hop with ⟨-, ho⟩ | ⟨st, hst, -⟩
  · exact ho.1.le
  · exact (List.getElem?_eq_some_iff.mp hst).1.le

namespace EpochInv

variable {x x' : LogShared} {pcs : ℕ → LogPc} {t : ℕ} {l l' : LogPc}

/-- A step of thread `t` that neither ends an operation nor starts or finishes a commit. -/
lemma keep (h : EpochInv x pcs) (hncommit : x'.ncommit = x.ncommit)
    (hc : x'.committing = x.committing) (hout : x.outstanding ≤ x'.outstanding)
    (hcommits : x'.commits = x.commits) (hended : x'.ended = x.ended)
    (hempty : ¬x'.Busy → x'.lh = []) (hl : pcs t = l) (hl' : l'.commits = l.commits)
    (htarget : ∀ n, l'.target = some n → n ≤ x.ncommit + 1 ∧ (x.ncommit < n → x.Busy)) :
    EpochInv x' (update pcs t l') := by
  subst hl
  have hbusy : x.Busy → x'.Busy := by
    rintro (hb | hb)
    · exact Or.inl (hc.trans hb)
    · exact Or.inr (by omega)
  refine ⟨by rw [hcommits, hncommit, hc]; exact h.count, fun op hop he => ?_, hempty,
    fun hx => ?_, fun u n hu => ?_⟩
  · rw [hcommits] at he
    have := h.ended op (hended ▸ hop) he
    omega
  · obtain ⟨u, hu⟩ := h.commits (hc ▸ hx)
    exact ⟨u, (proj_update LogPc.commits hl' u).trans hu⟩
  · rw [hncommit]
    obtain ⟨hle, hwait⟩ := (forall_update_iff pcs fun _ l => ∀ n, l.target = some n →
      n ≤ x.ncommit + 1 ∧ (x.ncommit < n → x.Busy)).mpr ⟨htarget, fun u _ => h.target u⟩ u n hu
    exact ⟨hle, fun hn => hbusy (hwait hn)⟩

/-- Another thread's target is reached no sooner than the log has been busy. -/
lemma target_update (h : EpochInv x pcs) (hl' : l'.target = none) (hn : x.ncommit ≤ x'.ncommit)
    (hbusy : x'.Busy ∨ x'.ncommit = x.ncommit + 1) (u n : ℕ)
    (hu : (update pcs t l' u).target = some n) :
    n ≤ x'.ncommit + 1 ∧ (x'.ncommit < n → x'.Busy) := by
  by_cases hut : u = t
  · subst hut
    rw [update_self, hl'] at hu
    exact absurd hu (by simp)
  · rw [update_of_ne hut] at hu
    have hle := (h.target u n hu).1
    refine ⟨by omega, fun hlt => ?_⟩
    rcases hbusy with hb | hb
    · exact hb
    · omega

/-- Every action keeps the count. -/
lemma act (h : EpochInv x pcs) (hg : GroupInv x pcs) (ht : t < NPROC)
    (ha : LogAct (pcs t) x l' x') : EpochInv x' (update pcs t l') := by
  have hnonneg : 0 ≤ x.outstanding := hg.outstanding ▸ opCount_nonneg pcs
  generalize hl : pcs t = l at ha
  have hinside : l.op.isSome → 0 < x.outstanding := by
    intro hop
    rw [hg.outstanding]
    exact opCount_pos ht (by rw [hl]; exact hop)
  cases ha with
  | call x l' hcall =>
    rcases hcall with rfl | rfl <;> exact h.keep rfl rfl le_rfl rfl rfl h.empty hl rfl (by simp)
  | wait | leave | modify | absorb | empty | start | log | logEnd | head | install | installEnd
  | erase | syncIdle | syncEnd =>
    exact h.keep rfl rfl le_rfl rfl rfl h.empty hl rfl (by simp)
  | add op b x hlen hb =>
    refine h.keep rfl rfl le_rfl rfl rfl (fun hb => absurd (Or.inr ?_) hb) hl rfl (by simp)
    exact hinside rfl
  | enter x hc hspace =>
    refine h.keep rfl rfl (by dsimp only; omega) rfl rfl (fun hb => absurd (Or.inr ?_) hb) hl rfl
      (by simp)
    dsimp only
    omega
  | clear x => exact h.keep rfl rfl le_rfl rfl rfl (fun _ => rfl) hl rfl (by simp)
  | syncWait x hb =>
    refine h.keep rfl rfl le_rfl rfl rfl h.empty hl rfl fun n hn => ?_
    obtain rfl := Option.some.inj hn
    exact ⟨le_rfl, fun _ => hb⟩
  | syncMore n x hn =>
    refine h.keep rfl rfl le_rfl rfl rfl h.empty hl rfl fun m hm => ?_
    obtain rfl := Option.some.inj hm
    exact h.target t n (by rw [hl]; rfl)
  | last op x hout hc =>
    refine ⟨?_, fun op' hop he => ?_, fun hb => absurd (Or.inl rfl) hb,
      fun _ => ⟨t, by rw [update_self]; rfl⟩,
      h.target_update rfl le_rfl (Or.inl (Or.inl rfl))⟩
    · have := h.count
      simp only [hc, Bool.false_eq_true, if_false] at this
      simp [this]
    · exfalso
      have hle : op'.epoch ≤ x.commits.length := by
        rcases mem_append.mp hop with hmem | hmem
        · exact hg.ended_epoch_le hmem
        · obtain rfl := mem_singleton.mp hmem
          exact (hg.op t op' (by rw [hl]; rfl)).1.le
      rw [length_append, length_singleton] at he
      omega
  | more op x hout hc =>
    have hpos : 0 < x.outstanding - 1 := by
      have := hinside rfl
      omega
    exact ⟨h.count, fun _ _ _ => hpos, fun hb => absurd (Or.inr hpos) hb,
      fun hx => absurd (hc.symm.trans hx) (by simp), h.target_update rfl le_rfl (Or.inl (Or.inr hpos))⟩
  | done x =>
    have hcom := hg.committing t (by rw [hl]; rfl)
    refine ⟨?_, fun op hop he => ?_, fun _ => ?_, fun hx => absurd hx (by simp),
      h.target_update rfl (Nat.le_succ _) (Or.inr rfl)⟩
    · have := h.count
      simp only [hcom, if_true] at this
      simp [this]
    · exact h.ended op hop he
    · obtain ⟨st, -, -, hat⟩ := hg.commit t (by rw [hl]; rfl)
      rw [hl] at hat
      change x.toLogState.lh = []
      rw [show x.toLogState = st.commit from hat, LogState.commit_lh]

end EpochInv

/-! ## The disk while a commit is running -/

namespace LogState

/-- `s'` comes after `s`: its disk has some more writes. -/
def Later (s s' : LogState) : Prop :=
  ∃ ws, s'.disk = writes s.disk ws ∧ s'.trace = s.trace ++ ws

variable {s s' s'' : LogState}

lemma Later.refl (s : LogState) : s.Later s := ⟨[], rfl, (append_nil _).symm⟩

lemma Later.trans (h : s.Later s') (h' : s'.Later s'') : s.Later s'' := by
  obtain ⟨ws, hd, ht⟩ := h
  obtain ⟨vs, hd', ht'⟩ := h'
  exact ⟨ws ++ vs, by rw [hd', hd, writes_append], by rw [ht', ht, append_assoc]⟩

lemma later_bwrite (s : LogState) (b : ℕ) (data : Block) : s.Later (s.bwrite b data) :=
  ⟨[(b, data)], rfl, rfl⟩

lemma later_writeLogFrom (s : LogState) (k : ℕ) (bs : List ℕ) : s.Later (s.writeLogFrom k bs) := by
  induction bs generalizing s k with
  | nil => exact .refl s
  | cons b bs ih => exact (s.later_bwrite _ _).trans (ih _ _)

lemma later_installTransFrom (s : LogState) (k : ℕ) (bs : List ℕ) :
    s.Later (s.installTransFrom false k bs) := by
  induction bs generalizing s k with
  | nil => exact .refl s
  | cons b bs ih =>
    have hfirst : s.Later (s.installTransAt false k b) := s.later_bwrite b _
    exact hfirst.trans (ih _ _)

/-- Every stage of a commit comes after its start and before its end. -/
lemma later_of_commitAt {st : LogState} {l : LogPc} (hl : l.commits = true)
    (h : l.CommitAt st s) : st.Later s ∧ s.Later st.commit := by
  have herase : ∀ r : LogState, r.Later r.clearHead.writeHead := fun r => r.clearHead.later_bwrite ..
  -- From each stage on, in the order of the code, what follows are disk writes.
  have hclear : 0 < st.lh.length →
      (st.writeLog.writeHead.installTrans false).Later st.commit := by
    intro hlen
    rw [commit, if_pos hlen]
    exact herase _
  have hinstall : 0 < st.lh.length → ∀ k,
      (st.writeLog.writeHead.installTransFrom false 0 (st.lh.take k)).Later st.commit := by
    intro hlen k
    refine .trans ?_ (hclear hlen)
    have hlh : st.writeLog.writeHead.lh = st.lh.take k ++ st.lh.drop k := by
      rw [take_append_drop]
      exact writeLogFrom_lh ..
    rw [installTrans, hlh, installTransFrom_append]
    exact later_installTransFrom ..
  have hhead : 0 < st.lh.length → st.writeLog.Later st.commit := fun hlen =>
    (st.writeLog.later_bwrite ..).trans (hinstall hlen 0)
  have hlog : 0 < st.lh.length → ∀ k, (st.writeLogFrom 0 (st.lh.take k)).Later st.commit := by
    intro hlen k
    refine .trans ?_ (hhead hlen)
    have hlh : st.writeLog = st.writeLogFrom 0 (st.lh.take k ++ st.lh.drop k) := by
      rw [take_append_drop]
      rfl
    rw [hlh, writeLogFrom_append]
    exact later_writeLogFrom ..
  have hcommit : st.Later st.commit := by
    by_cases hlen : 0 < st.lh.length
    · exact hlog hlen 0
    · rw [commit, if_neg hlen]
      exact .refl st
  have hlog' : st.Later st.writeLog := st.later_writeLogFrom ..
  have hhead' : st.Later st.writeLog.writeHead := hlog'.trans (later_bwrite ..)
  cases l with
  | eUnlock | cTest =>
    obtain rfl : s = st := h
    exact ⟨.refl s, hcommit⟩
  | cLog k =>
    obtain ⟨rfl, hlen⟩ := h
    exact ⟨st.later_writeLogFrom .., hlog hlen k⟩
  | cHead =>
    obtain ⟨rfl, hlen⟩ := h
    exact ⟨hlog', hhead hlen⟩
  | cInstall k =>
    obtain ⟨rfl, hlen⟩ := h
    exact ⟨hhead'.trans (later_installTransFrom ..), hinstall hlen k⟩
  | cClear | cErase =>
    obtain ⟨rfl, hlen⟩ := h
    exact ⟨hhead'.trans (later_installTransFrom ..), hclear hlen⟩
  | cAcquire | cDone =>
    obtain rfl : s = st.commit := h
    exact ⟨hcommit, .refl _⟩
  | _ => exact absurd hl (by simp)

end LogState

/-- While a commit is running the disk has a prefix of its writes. -/
lemma disk_of_commitAt {st s : LogState} (hst : CommitReady st) (hl : l.commits = true)
    (h : l.CommitAt st s) : ∃ k, s.disk = writes st.disk (st.commitTrace.take k) := by
  obtain ⟨⟨ws, hd, ht⟩, vs, -, ht'⟩ := LogState.later_of_commitAt hl h
  refine ⟨ws.length, ?_⟩
  rw [(commit_complete hst).2.2.2.2.2, ht, append_assoc] at ht'
  rw [hd, append_cancel_left ht', take_left]

/-- Outside the log a commit writes nothing but its transaction. -/
lemma mem_commitTrace {s : LogState} (h : CommitReady s) {w : ℕ × Block} (hw : w ∈ s.commitTrace)
    (hb : w.1 ∉ logArea s.start) : w.1 ∈ s.lh ∧ w.2 = s.blk w.1 := by
  by_cases hne : s.lh = []
  · rw [commitTrace_nil hne] at hw
    exact absurd hw not_mem_nil
  rw [commitTrace_eq h hne, RedoLog.Commit.all, recovery_committed h] at hw
  rcases mem_append.mp hw with hw | hw
  · exact absurd ((s.commitPlan h).log_mem_area w hw) hb
  rcases mem_cons.mp hw with rfl | hw
  · exact absurd (s.commitPlan h).head_mem_area hb
  rcases mem_append.mp hw with hw | hw
  · obtain ⟨c, hc, rfl⟩ := mem_map.mp hw
    exact ⟨hc, rfl⟩
  · rw [mem_singleton.mp hw] at hb
    exact absurd (start_mem_logArea s.start) hb

/-! ## The disk between and during commits -/

lemma CommitReady.congr {s s' : LogState} (h : CommitReady s) (hdisk : s'.disk = s.disk)
    (hstart : s'.start = s.start) (hblk : s'.blk = s.blk) (hlh : s'.lh = s.lh) :
    CommitReady s' := by
  refine ⟨?_, ?_, ?_, ?_, ?_, ?_⟩
  · rw [hdisk, hstart]
    exact h.clean
  · rw [hdisk, hstart, hblk]
    exact h.coherent
  · rw [hlh]
    exact h.length_le
  · rw [hlh]
    exact h.nodup
  · rw [hlh, hstart]
    exact h.home
  · rw [hlh]
    exact h.lt

/-- Every commit starts from the disk that the one before has left, and so does the log when no
commit is running. -/
structure DiskInv (start : ℕ) (x : LogShared) (pcs : ℕ → LogPc) : Prop where
  start_eq : x.start = start
  starts : ∀ st ∈ x.commits, st.start = start
  ready : ∀ st ∈ x.commits, CommitReady st
  chain : ∀ k st st', x.commits[k]? = some st → x.commits[k + 1]? = some st' →
    st'.disk = st.commit.disk
  pending : ∀ t op b, (pcs t).pending = some (op, b) → b ∉ logArea start ∧ b < 2 ^ 32
  idle : x.committing = false → CommitReady x.toLogState ∧
    ∀ st, x.commits.getLast? = some st → x.disk = st.commit.disk

namespace DiskInv

variable {start : ℕ} {x x' : LogShared} {pcs : ℕ → LogPc} {t : ℕ} {l' : LogPc}

section

variable (h : DiskInv start x pcs)
include h

lemma pending_update
    (hl' : ∀ op b, l'.pending = some (op, b) → b ∉ logArea start ∧ b < 2 ^ 32) (u : ℕ) (op : LogOp)
    (b : ℕ) (hu : (update pcs t l' u).pending = some (op, b)) :
    b ∉ logArea start ∧ b < 2 ^ 32 :=
  (forall_update_iff pcs fun _ l => ∀ op b, l.pending = some (op, b) →
    b ∉ logArea start ∧ b < 2 ^ 32).mpr ⟨hl', fun u _ => h.pending u⟩ u op b hu

/-- A step that leaves the disk, the cache and the header alone. -/
lemma keep (hl' : ∀ op b, l'.pending = some (op, b) → b ∉ logArea start ∧ b < 2 ^ 32)
    (hstart : x'.start = x.start) (hcommits : x'.commits = x.commits)
    (hc : x'.committing = x.committing) (hdisk : x'.disk = x.disk) (hblk : x'.blk = x.blk)
    (hlh : x'.lh = x.lh) : DiskInv start x' (update pcs t l') := by
  refine ⟨hstart.trans h.start_eq, by rw [hcommits]; exact h.starts,
    by rw [hcommits]; exact h.ready, by rw [hcommits]; exact h.chain, h.pending_update hl',
    fun hx => ?_⟩
  obtain ⟨hready, hlast⟩ := h.idle (hc ▸ hx)
  exact ⟨hready.congr hdisk hstart hblk hlh, fun st hst => by
    rw [hdisk]
    exact hlast st (hcommits ▸ hst)⟩

/-- A step of the running commit. -/
lemma commitStep (hl' : l'.pending = none)
    (hstart : x'.start = x.start) (hcommits : x'.commits = x.commits)
    (hc : x'.committing = true) : DiskInv start x' (update pcs t l') :=
  ⟨hstart.trans h.start_eq, by rw [hcommits]; exact h.starts, by rw [hcommits]; exact h.ready,
    by rw [hcommits]; exact h.chain, h.pending_update fun op b hb => absurd (hl'.symm.trans hb) (by simp),
    fun hx => absurd (hc.symm.trans hx) (by simp)⟩

/-- Every action keeps the invariant, if the operations log blocks outside the log. -/
lemma act (hg : GroupInv x pcs) (ha : LogAct (pcs t) x l' x')
    (hhome : ∀ op b, pcs t = .inOp op → l' = .lAcquire op b → b ∉ logArea start ∧ b < 2 ^ 32) :
    DiskInv start x' (update pcs t l') := by
  generalize hl : pcs t = l at ha
  have hcom : l.commits = true → x.committing = true := fun hc => hg.committing t (by rw [hl]; exact hc)
  cases ha with
  | call x l' hcall =>
    rcases hcall with rfl | rfl <;> exact h.keep (by simp) rfl rfl rfl rfl rfl rfl
  | wait | leave | absorb | empty | start | logEnd | installEnd | syncWait | syncIdle | syncMore
  | syncEnd | enter | more =>
    exact h.keep (by simp) rfl rfl rfl rfl rfl rfl
  | log | head | install | clear | erase => exact h.commitStep rfl rfl rfl (hcom rfl)
  | modify op x b data =>
    obtain ⟨hb, hlt⟩ := hhome op b hl rfl
    refine ⟨h.start_eq, h.starts, h.ready, h.chain, h.pending_update fun op' b' hb' => ?_,
      fun hx => ⟨?_, (h.idle hx).2⟩⟩
    · obtain ⟨rfl, rfl⟩ := Prod.mk.inj (Option.some.inj hb')
      exact ⟨hb, hlt⟩
    · obtain ⟨hready, -⟩ := h.idle hx
      refine ⟨hready.clean, fun c hc => ?_, hready.length_le, hready.nodup, hready.home, hready.lt⟩
      have hcb : c ≠ b := by
        rintro rfl
        exact hb (h.start_eq ▸ hc)
      change update x.blk b data c = x.disk c
      rw [update_of_ne hcb]
      exact hready.coherent c hc
  | add op b x hlen hb =>
    obtain ⟨hhome, hlt⟩ := h.pending t op b (by rw [hl]; rfl)
    refine ⟨h.start_eq, h.starts, h.ready, h.chain, h.pending_update (by simp),
      fun hx => ⟨?_, (h.idle hx).2⟩⟩
    obtain ⟨hready, -⟩ := h.idle hx
    refine ⟨hready.clean, hready.coherent, ?_, ?_,
      forall_mem_append.mpr ⟨hready.home, forall_mem_singleton.mpr (h.start_eq.symm ▸ hhome)⟩,
      forall_mem_append.mpr ⟨hready.lt, forall_mem_singleton.mpr hlt⟩⟩
    · rw [length_append, length_singleton]
      exact hlen
    · exact Nodup.append hready.nodup (nodup_singleton b) (by simpa using hb)
  | last op x hout hc =>
    obtain ⟨hready, hlast⟩ := h.idle hc
    have hready' : CommitReady { x.toLogState with outstanding := 0, committing := true } :=
      hready.congr rfl rfl rfl rfl
    refine ⟨h.start_eq, forall_mem_append.mpr ⟨h.starts, forall_mem_singleton.mpr h.start_eq⟩,
      forall_mem_append.mpr ⟨h.ready, forall_mem_singleton.mpr hready'⟩, fun k st st' hk hk' => ?_,
      h.pending_update (by simp), fun hx => absurd hx (by simp)⟩
    · -- Only the last link is new: the disk is as the commit before has left it.
      have hlt : k + 1 < x.commits.length + 1 := by
        have := (List.getElem?_eq_some_iff.mp hk').1
        rwa [length_append, length_singleton] at this
      rw [List.getElem?_append_left (by omega)] at hk
      by_cases hlen : k + 1 < x.commits.length
      · rw [List.getElem?_append_left hlen] at hk'
        exact h.chain k st st' hk hk'
      · have hkl : k + 1 = x.commits.length := by omega
        rw [hkl, List.getElem?_concat_length] at hk'
        obtain rfl := Option.some.inj hk'
        refine hlast st ?_
        rw [List.getLast?_eq_getElem?, ← hkl]
        exact hk
  | done x =>
    obtain ⟨st, hst, -, hat⟩ := hg.commit t (by rw [hl]; rfl)
    rw [hl] at hat
    have hat : x.toLogState = st.commit := hat
    have hmem : st ∈ x.commits := mem_of_getLast? hst
    have hstart : st.start = start := h.starts st hmem
    obtain ⟨-, hclean, hcoherent, -, hlh, -⟩ := commit_complete (h.ready st hmem)
    refine ⟨h.start_eq, h.starts, h.ready, h.chain, h.pending_update (by simp),
      fun _ => ⟨?_, fun st' hst' => ?_⟩⟩
    · have hxs : x.toLogState.start = st.start := h.start_eq.trans hstart.symm
      have hready : CommitReady x.toLogState := by
        refine ⟨?_, ?_, ?_, ?_, ?_, ?_⟩
        · rw [hxs, hat]
          exact hclean
        · rw [hxs, hat]
          exact hcoherent
        all_goals simp [hat, hlh]
      exact hready.congr rfl rfl rfl rfl
    · obtain rfl := Option.some.inj (hst.symm.trans hst')
      change x.toLogState.disk = _
      rw [hat]

end

end DiskInv

/-! ## The disk as whole transactions leave it -/

/-- The disk `d` after some commits, each of them done as a whole. -/
def replay (d : Disk) (cs : List LogState) : Disk := cs.foldl (fun d st => writes d st.trans) d

/-- The disk before the first commit. -/
def LogShared.base (x : LogShared) : Disk := (x.commits.head?.map LogState.disk).getD x.disk

lemma replay_take_succ {d : Disk} {cs : List LogState} {n : ℕ} {st : LogState}
    (hst : cs[n]? = some st) : replay d (cs.take (n + 1)) = writes (replay d (cs.take n)) st.trans := by
  rw [replay, take_add_one, hst, foldl_append]
  rfl

/-- The disk `d` holds block `b` as the commit with number `n`, or a later one that has logged the
block again, has written it. -/
def OnDisk (x : LogShared) (n b : ℕ) (d : Disk) : Prop :=
  ∃ j st, n ≤ j ∧ x.commits[j]? = some st ∧ b ∈ st.lh ∧ d b = st.blk b

namespace DiskInv

variable {start : ℕ} {x : LogShared} {pcs : ℕ → LogPc} {n b : ℕ} {sn st : LogState}

section

variable (h : DiskInv start x pcs)
include h

lemma notMem_logArea (hn : x.commits[n]? = some sn) (hb : b ∈ sn.lh) : b ∉ logArea start := by
  have hmem := mem_of_getElem? hn
  rw [← h.starts sn hmem]
  exact (h.ready sn hmem).home b hb

lemma sameHome_commit (hst : st ∈ x.commits) :
    (redoLog start).SameHome st.commit.disk (writes st.disk st.trans) := by
  have hdone := (commit_complete (h.ready st hst)).1
  rwa [h.starts st hst] at hdone

/-- Each commit starts from what the commits before it have left. -/
lemma sameHome_replay (hst : x.commits[n]? = some st) :
    (redoLog start).SameHome st.disk (replay x.base (x.commits.take n)) := by
  induction n generalizing st with
  | zero =>
    have hbase : x.base = st.disk := by simp [LogShared.base, List.head?_eq_getElem?, hst]
    rw [hbase]
    exact .rfl
  | succ n ih =>
    have hlt := (List.getElem?_eq_some_iff.mp hst).1
    have hprev : x.commits[n]? = some x.commits[n] := List.getElem?_eq_getElem (by omega)
    rw [h.chain n _ st hprev hst, replay_take_succ hprev]
    exact (h.sameHome_commit (mem_of_getElem? hprev)).trans ((ih hprev).writes _)

/-- Between commits the disk is what all of them have left. -/
lemma sameHome_idle (hc : x.committing = false) :
    (redoLog start).SameHome x.disk (replay x.base x.commits) := by
  cases hlast : x.commits.getLast? with
  | none =>
    have hnil : x.commits = [] := List.getLast?_eq_none_iff.mp hlast
    rw [LogShared.base, hnil]
    exact .rfl
  | some st =>
    rw [(h.idle hc).2 st hlast]
    rw [List.getLast?_eq_getElem?] at hlast
    have hpos := (List.getElem?_eq_some_iff.mp hlast).1
    have hall : x.commits.take (x.commits.length - 1 + 1) = x.commits :=
      take_of_length_le (by omega)
    rw [← hall, replay_take_succ hlast]
    exact (h.sameHome_commit (mem_of_getElem? hlast)).trans ((h.sameHome_replay hlast).writes _)

/-- The commit that is running. -/
lemma running (hg : GroupInv x pcs) (he : EpochInv x pcs)
    (hc : x.committing = true) : ∃ st k, x.commits[x.ncommit]? = some st ∧ CommitReady st ∧
      st.start = start ∧ x.disk = writes st.disk (st.commitTrace.take k) := by
  obtain ⟨t, ht⟩ := he.commits hc
  obtain ⟨st, hst, -, hat⟩ := hg.commit t ht
  have hmem : st ∈ x.commits := mem_of_getLast? hst
  have hcount : x.commits.length = x.ncommit + 1 := by simpa [hc] using he.count
  obtain ⟨k, hk⟩ := disk_of_commitAt (h.ready st hmem) ht hat
  rw [List.getLast?_eq_getElem?, hcount] at hst
  exact ⟨st, k, hst, h.ready st hmem, h.starts st hmem, hk⟩

/-- A recovery after a crash, and after any number of recoveries that crashed as well, leaves what
all finished commits have left, or these and the running one. -/
lemma recovered (hg : GroupInv x pcs) (he : EpochInv x pcs) {d : Disk}
    (hd : Relation.ReflTransGen (RecoveryCrash start) x.disk d) :
    headN ((boot start d).recoverFromLog.disk start) = 0 ∧
      ∃ n, x.ncommit ≤ n ∧ n ≤ x.commits.length ∧ (redoLog start).SameHome
        (boot start d).recoverFromLog.disk (replay x.base (x.commits.take n)) := by
  classical
  have hcount := he.count
  cases hc : x.committing with
  | false =>
    rw [hc] at hcount
    have hnot : ¬HeadReached x.toLogState 0 := by
      rintro ⟨w, hw, -⟩
      simp at hw
    -- The header on the disk is empty: recovery finds nothing to do.
    obtain ⟨hrec, hhead⟩ := recovered_of_crash (h.idle hc).1 (k := 0) (h.start_eq.symm ▸ hd)
    rw [if_neg hnot, h.start_eq] at hrec
    rw [h.start_eq] at hhead
    refine ⟨hhead, x.commits.length, hcount.ge, le_rfl, ?_⟩
    rw [List.take_length]
    exact hrec.trans (h.sameHome_idle hc)
  | true =>
    rw [hc, if_pos rfl] at hcount
    obtain ⟨st, k, hst, hready, hstart, hdisk⟩ := h.running hg he hc
    rw [hdisk] at hd
    obtain ⟨hrec, hhead⟩ := recovered_of_crash hready (k := k) (hstart.symm ▸ hd)
    rw [hstart] at hrec hhead
    refine ⟨hhead, ?_⟩
    split_ifs at hrec with hreach
    · refine ⟨x.ncommit + 1, by omega, hcount.ge, ?_⟩
      rw [replay_take_succ hst]
      exact hrec.trans ((h.sameHome_replay hst).writes _)
    · exact ⟨x.ncommit, le_rfl, by omega, hrec.trans (h.sameHome_replay hst)⟩

/-- What a commit has logged is there after this commit and after the later ones. -/
lemma onDisk_replay (hn : x.commits[n]? = some sn) (hb : b ∈ sn.lh)
    {m : ℕ} (hm : n < m) (hle : m ≤ x.commits.length) :
    OnDisk x n b (replay x.base (x.commits.take m)) := by
  have hnodup : ∀ {j : ℕ} {st : LogState}, x.commits[j]? = some st → st.lh.Nodup := fun hst =>
    (h.ready _ (mem_of_getElem? hst)).nodup
  induction m, hm using Nat.le_induction with
  | base =>
    refine ⟨n, sn, le_rfl, hn, hb, ?_⟩
    rw [replay_take_succ hn, writes_trans (hnodup hn), if_pos hb]
  | succ m hm ih =>
    have hst : x.commits[m]? = some x.commits[m] := List.getElem?_eq_getElem (by omega)
    rw [replay_take_succ hst]
    by_cases hbst : b ∈ x.commits[m].lh
    · exact ⟨m, _, by omega, hst, hbst, by rw [writes_trans (hnodup hst), if_pos hbst]⟩
    · obtain ⟨j, sj, hj, hsj, hbj, hd⟩ := ih (by omega)
      exact ⟨j, sj, hj, hsj, hbj, by rw [writes_trans (hnodup hst), if_neg hbst, hd]⟩

/-- What a finished commit has logged is on the disk, and is recovered after a crash. -/
lemma onDisk (hg : GroupInv x pcs) (he : EpochInv x pcs)
    (hn : x.commits[n]? = some sn) (hb : b ∈ sn.lh) (hlt : n < x.ncommit) :
    OnDisk x n b x.disk ∧ ∀ d, Relation.ReflTransGen (RecoveryCrash start) x.disk d →
      OnDisk x n b (boot start d).recoverFromLog.disk := by
  have hhome := h.notMem_logArea hn hb
  have hcount := he.count
  have hsame : ∀ {d : Disk} {m : ℕ}, n < m → m ≤ x.commits.length →
      d b = replay x.base (x.commits.take m) b → OnDisk x n b d := by
    intro d m hm hle hd
    obtain ⟨j, sj, hj, hsj, hbj, hdj⟩ := h.onDisk_replay hn hb hm hle
    exact ⟨j, sj, hj, hsj, hbj, hd.trans hdj⟩
  refine ⟨?_, fun d hd => ?_⟩
  swap
  · obtain ⟨-, m, hm, hle, hrec⟩ := h.recovered hg he hd
    exact hsame (hlt.trans_le hm) hle (hrec b hhome)
  cases hc : x.committing with
  | false =>
    refine hsame (hlt.trans_le (hcount ▸ Nat.le_add_right _ _)) le_rfl ?_
    rw [List.take_length]
    exact h.sameHome_idle hc b hhome
  | true =>
    obtain ⟨st, k, hst, hready, hstart, hdisk⟩ := h.running hg he hc
    rcases writes_eq_or_mem st.disk (st.commitTrace.take k) b with heq | hw
    · refine hsame hlt (by omega) ?_
      rw [hdisk, heq]
      exact h.sameHome_replay hst b hhome
    · obtain ⟨hbst, hv⟩ := mem_commitTrace hready (mem_of_mem_take hw) (hstart.symm ▸ hhome)
      exact ⟨x.ncommit, st, hlt.le, hst, hbst, by rw [hdisk]; exact hv⟩

end

end DiskInv

/-! ## Runs -/

/-- The log right after `initlog`, with its header block at `start`. -/
structure LogMounted (start : ℕ) (s : Threads LogShared LogPc) : Prop where
  fresh : LogFresh s
  start_eq : s.sh.start = start
  ncommit : s.sh.ncommit = 0
  clean : headN (s.sh.disk start) = 0
  coherent : ∀ b ∈ logArea start, s.sh.blk b = s.sh.disk b

/-- A system call logs blocks outside the log. -/
def HomeWrite (start : ℕ) : ThreadStep LogChoice → Prop
  | .run _ (.write b _) => b ∉ logArea start ∧ b < 2 ^ 32
  | _ => True

instance (start : ℕ) : ∀ a, Decidable (HomeWrite start a)
  | .run _ (.write b _) =>
    inferInstanceAs (Decidable (¬(start ≤ b ∧ b ≤ start + LOGBLOCKS) ∧ b < 2 ^ 32))
  | .run _ .beginOp | .run _ .endOp | .run _ .sync | .run _ .go
  | .kkill _ | .yield _ | .schedule _ => isTrue trivial

/-- The invariants of the log, together. -/
structure LogInv (start : ℕ) (s : Threads LogShared LogPc) : Prop where
  ok : GroupOk s
  epoch : EpochInv s.sh s.pcs
  disk : DiskInv start s.sh s.pcs

lemma LogFresh.epoch (h : LogFresh s) (hn : s.sh.ncommit = 0) :
    EpochInv s.sh s.pcs where
  count := by simp [h.commits, hn, h.committing]
  ended := by simp [h.ended]
  empty := fun _ => h.lh
  commits := by simp [h.committing]
  target := by simp [h.pcs]

lemma LogMounted.inv {start : ℕ} (h : LogMounted start s) :
    LogInv start s where
  ok := h.fresh.ok
  epoch := h.fresh.epoch h.ncommit
  disk :=
    { start_eq := h.start_eq
      starts := by simp [h.fresh.commits]
      ready := by simp [h.fresh.commits]
      chain := by simp [h.fresh.commits]
      pending := by simp [h.fresh.pcs]
      idle := fun _ => ⟨⟨by rw [h.start_eq]; exact h.clean, by rw [h.start_eq]; exact h.coherent,
        by simp [h.fresh.lh], by simp [h.fresh.lh], by simp [h.fresh.lh], by simp [h.fresh.lh]⟩,
        by simp [h.fresh.commits]⟩ }

lemma logCode_next_target (h : (logCode chan l).Next l') :
    l'.target = l.target := by
  cases l <;> simp only [logCode, Instr.Next] at h <;> subst h <;> rfl

/-- The step lemma of the count. -/
lemma EpochInv.step (h : EpochInv s.sh s.pcs) (hg : GroupInv s.sh s.pcs)
    (hs : Threads.step (logCode chan) s a = some s') : EpochInv s'.sh s'.pcs := by
  refine (Threads.step_cases hs).rule h ?_ ?_
  · intro t ht l' hnext
    refine h.keep rfl rfl le_rfl rfl rfl h.empty rfl (logCode_next hnext).2.1 fun n hn => ?_
    exact h.target t n ((logCode_next_target hnext).symm.trans hn)
  · intro t ht f ch l' _ hf hfx
    exact h.act hg ht (logAct_of_next hf hfx)

/-- The step lemma of the disk. -/
lemma DiskInv.step {start : ℕ}
    (h : DiskInv start s.sh s.pcs) (hg : GroupInv s.sh s.pcs) (ha : HomeWrite start a)
    (hs : Threads.step (logCode chan) s a = some s') : DiskInv start s'.sh s'.pcs := by
  refine (Threads.step_cases hs).rule h ?_ ?_
  · intro t _ l' hnext
    exact h.keep (fun op b hb => h.pending t op b (logCode_next_pending hnext hb))
      rfl rfl rfl rfl rfl rfl
  · intro t _ f ch l' ha' hf hfx
    refine h.act hg (logAct_of_next hf hfx) fun op b hl hl' => ?_
    obtain ⟨data, rfl⟩ := choice_of_lAcquire (hl ▸ hf) (hl' ▸ hfx)
    subst ha'
    exact ha

/-- The step lemma of the log. -/
theorem LogInv.step {start : ℕ} (h : LogInv start s) (ha : HomeWrite start a)
    (hs : Threads.step (logCode chan) s a = some s') : LogInv start s' :=
  ⟨h.ok.step hs, h.epoch.step h.ok.1 hs, h.disk.step h.ok.1 ha hs⟩

/-! ## The barrier -/

/-- An action never takes back a commit or an ended operation. -/
lemma LogAct.mono (h : LogAct l x l' x') :
    x.ncommit ≤ x'.ncommit ∧ ∀ op ∈ x.ended, op ∈ x'.ended := by
  cases h with
  | done => exact ⟨Nat.le_succ _, fun _ => id⟩
  | last | more => exact ⟨le_rfl, fun _ hop => mem_append_left _ hop⟩
  | _ => exact ⟨le_rfl, fun _ => id⟩

/-- What a `sys_sync` has established about the operations `E` that had ended when it took
`log.lock`. -/
@[simp] def LogPc.Synced (E : List LogOp) (x : LogShared) : LogPc → Prop
  | .sTest => ∀ op ∈ E, op ∈ x.ended
  | .sLoop n | .sPrepare n | .sUnlock n | .sSleep n | .sLock n => ∀ op ∈ E, op.epoch < n
  | .sRelease | .idle => ∀ op ∈ E, op.epoch < x.ncommit
  | _ => False

lemma LogPc.Synced.mono (h : l.Synced E x)
    (hn : x.ncommit ≤ x'.ncommit) (hended : ∀ op ∈ x.ended, op ∈ x'.ended) : l.Synced E x' := by
  cases l with
  | sTest => exact fun op hop => hended op (h op hop)
  | sLoop | sPrepare | sUnlock | sSleep | sLock => exact h
  | sRelease | idle => exact fun op hop => (h op hop).trans_le hn
  | _ => exact h

/-- The thread's own actions. -/
lemma EpochInv.synced_act {pcs : ℕ → LogPc}
    (h : EpochInv x pcs) (hg : GroupInv x pcs) (ha : LogAct l x l' x') (hl : l ≠ .idle)
    (hE : l.Synced E x) : l'.Synced E x' := by
  have hle : ∀ op ∈ x.ended, op.epoch ≤ x.ncommit ∧ (¬x.Busy → op.epoch < x.ncommit) := by
    intro op hop
    have hepoch := hg.ended_epoch_le hop
    have hcount := h.count
    by_cases hc : x.committing = true
    · simp only [hc, if_true] at hcount
      have hne : op.epoch ≠ x.commits.length := by
        intro he
        have := h.ended op hop he
        rw [hg.quiet hc] at this
        exact absurd this (by decide)
      exact ⟨by omega, fun hb => absurd (Or.inl hc) hb⟩
    · simp only [hc, Bool.false_eq_true, if_false] at hcount
      refine ⟨by omega, fun hb => ?_⟩
      have hne : op.epoch ≠ x.commits.length := fun he => hb (Or.inr (h.ended op hop he))
      omega
  cases ha with
  | call => exact absurd rfl hl
  | syncWait x hb => exact fun op hop => Nat.lt_succ_of_le (hle op (hE op hop)).1
  | syncIdle x hb => exact fun op hop => (hle op (hE op hop)).2 hb
  | syncMore n x hn => exact hE
  | syncEnd n x hn => exact fun op hop => (hE op hop).trans_le (not_lt.mp hn)
  | _ => exact hE.elim

lemma logCode_next_synced (h : (logCode chan l).Next l') (hE : l.Synced E x) : l'.Synced E x := by
  cases l <;> simp only [logCode, Instr.Next] at h <;> subst h <;> first | exact hE | exact hE.elim

/-- No step takes back a commit or an ended operation. -/
lemma step_mono (hs : Threads.step (logCode chan) s a = some s') :
    s.sh.ncommit ≤ s'.sh.ncommit ∧ ∀ op ∈ s.sh.ended, op ∈ s'.sh.ended := by
  exact (Threads.step_cases hs).rule
    (J := fun x _ => s.sh.ncommit ≤ x.ncommit ∧ ∀ op ∈ s.sh.ended, op ∈ x.ended)
    ⟨le_rfl, fun _ => id⟩ (fun _ _ _ _ => ⟨le_rfl, fun _ => id⟩)
    fun _ _ _ _ _ _ hf hfx => (logAct_of_next hf hfx).mono

/-- The step lemma of the barrier. -/
lemma LogInv.synced_step {start : ℕ} {t : ℕ} (h : LogInv start s)
    (hs : Threads.step (logCode chan) s a = some s') (ht : s.pcs t ≠ .idle)
    (hE : (s.pcs t).Synced E s.sh) : (s'.pcs t).Synced E s'.sh := by
  obtain ⟨hn, hended⟩ := step_mono hs
  refine (Threads.step_cases hs).rule (J := fun x pcs => (pcs t).Synced E x) hE ?_ ?_
  · intro u _ l' hnext
    by_cases hut : t = u
    · subst hut
      rw [update_self]
      exact logCode_next_synced hnext hE
    · rwa [update_of_ne hut]
  · intro u _ f ch l' _ hf hfx
    by_cases hut : t = u
    · subst hut
      rw [update_self]
      exact h.epoch.synced_act h.ok.1 (logAct_of_next hf hfx) ht hE
    · rw [update_of_ne hut]
      exact hE.mono hn hended

/-- The operations of a finished commit are durable. -/
lemma LogInv.durable {start : ℕ} (h : LogInv start s) {op : LogOp}
    (hop : op ∈ s.sh.ended) (he : op.epoch < s.sh.ncommit) :
    op.Committed s.sh ∧ ∀ w ∈ op.writes, OnDisk s.sh op.epoch w.1 s.sh.disk ∧
      ∀ d, Relation.ReflTransGen (RecoveryCrash start) s.sh.disk d →
        OnDisk s.sh op.epoch w.1 (boot start d).recoverFromLog.disk := by
  have hcommitted : op.Committed s.sh := by
    rcases h.ok.1.ended op hop with ⟨-, ho⟩ | ho
    · have hcount := h.epoch.count
      rw [← ho.1] at hcount
      omega
    · exact ho
  obtain ⟨st, hst, hw⟩ := hcommitted
  exact ⟨⟨st, hst, hw⟩, fun w hmem => h.disk.onDisk h.ok.1 h.epoch hst (hw w hmem).2 he⟩

/-- **`sys_sync` is a durability barrier.**  A system with any processes in the log reaches a state
`s₁` in which thread `t` takes `log.lock` in `sys_sync`; it returns in `s₃`.  Every operation that
`end_op` had counted out by `s₁` is then in a finished commit, and each block it has logged stands
on the disk at its home location as that commit, or a later one, wrote it.  The same is true after
any further steps, a crash, and any number of recoveries of which the last runs to its end. -/
theorem sync_barrier (chan start t : ℕ) (ch : LogChoice) (s₀ s₁ s₂ s₃ : Threads LogShared LogPc)
    (as bs : List (ThreadStep LogChoice)) (h₀ : LogMounted start s₀)
    (hhome : ∀ a ∈ as ++ .run t ch :: bs, HomeWrite start a)
    (hrun : run (Threads.step (logCode chan)) s₀ as = some s₁) (hcall : s₁.ctl t = .pc .sAcquire)
    (hlock : Threads.step (logCode chan) s₁ (.run t ch) = some s₂)
    (hsync : run (Threads.step (logCode chan)) s₂ bs = some s₃)
    (hinside : StepsOk (Threads.step (logCode chan)) (fun s _ => s.pcs t ≠ .idle) s₂ bs)
    (hreturn : s₃.pcs t = .idle) :
    ∀ op ∈ s₁.sh.ended, op.Committed s₃.sh ∧ op.epoch < s₃.sh.ncommit ∧ ∀ w ∈ op.writes,
      OnDisk s₃.sh op.epoch w.1 s₃.sh.disk ∧
      ∀ cs s₄, (∀ a ∈ cs, HomeWrite start a) →
        run (Threads.step (logCode chan)) s₃ cs = some s₄ →
        ∀ d, Relation.ReflTransGen (RecoveryCrash start) s₄.sh.disk d →
          OnDisk s₄.sh op.epoch w.1 (boot start d).recoverFromLog.disk := by
  have h₁ : LogInv start s₁ :=
    run_invariant_of_mem (fun s a ha s' hi hs => hi.step (hhome a (List.mem_append_left _ ha)) hs)
      h₀.inv hrun
  have h₂ : LogInv start s₂ :=
    h₁.step (hhome _ (List.mem_append_right _ List.mem_cons_self)) hlock
  have hended₂ := (step_mono hlock).2
  have hsynced : (s₂.pcs t).Synced s₁.sh.ended s₂.sh := by
    have hpos : s₂.pcs t = .sTest := by
      rw [Threads.step] at hlock
      split_ifs at hlock
      simp only [Threads.turn, hcall, logCode, Threads.exec] at hlock
      split_ifs at hlock
      obtain rfl := Option.some.inj hlock
      simp [Threads.pcs, Threads.goto]
    rw [hpos]
    exact hended₂
  have hok : StepsOk (Threads.step (logCode chan)) (fun _ a => HomeWrite start a) s₂ bs :=
    StepsOk.of_mem fun a ha => hhome a (List.mem_append_right _ (List.mem_cons_of_mem _ ha))
  obtain ⟨h₃, hend, hended₃⟩ : LogInv start s₃ ∧ (s₃.pcs t).Synced s₁.sh.ended s₃.sh ∧
      ∀ op ∈ s₁.sh.ended, op ∈ s₃.sh.ended :=
    run_invariant_of_stepsOk
      (I := fun s => LogInv start s ∧ (s.pcs t).Synced s₁.sh.ended s.sh ∧
        ∀ op ∈ s₁.sh.ended, op ∈ s.sh.ended)
      (fun s a s' hi ha hs => ⟨hi.1.step ha.2 hs, hi.1.synced_step hs ha.1 hi.2.1,
        fun op hop => (step_mono hs).2 op (hi.2.2 op hop)⟩)
      ⟨h₂, hsynced, hended₂⟩ (hinside.and hok) hsync
  rw [hreturn] at hend
  intro op hop
  obtain ⟨hcommitted, hdisk⟩ := h₃.durable (hended₃ op hop) (hend op hop)
  refine ⟨hcommitted, hend op hop, fun w hw => ⟨(hdisk w hw).1, fun cs s₄ hcs hrun₄ d hd => ?_⟩⟩
  obtain ⟨h₄, hended₄, hlt⟩ : LogInv start s₄ ∧ op ∈ s₄.sh.ended ∧ op.epoch < s₄.sh.ncommit :=
    run_invariant_of_mem
      (I := fun s => LogInv start s ∧ op ∈ s.sh.ended ∧ op.epoch < s.sh.ncommit)
      (fun s a ha s' hi hs => ⟨hi.1.step (hcs a ha) hs, (step_mono hs).2 op hi.2.1,
        hi.2.2.trans_le (step_mono hs).1⟩)
      ⟨h₃, hended₃ op hop, hend op hop⟩ hrun₄
  exact ((h₄.durable hended₄ hlt).2 w hw).2 d hd

lemma freshLog_mounted : LogMounted 2 freshLog where
  fresh := freshLog_fresh
  start_eq := rfl
  ncommit := rfl
  clean := by decide
  coherent := fun _ _ => rfl

/-- Process 1 calls `sys_sync` while the commit of `twoOps` is running. -/
def syncCalled : List (ThreadStep LogChoice) := twoOps ++ [.run 1 .sync]

/-- Process 1, which has the lock, goes to sleep; process 0 finishes the commit and wakes it up. -/
def syncReturns : List (ThreadStep LogChoice) :=
  List.replicate 5 (.run 1 .go) ++ List.replicate 79 (.run 0 .go) ++
    .schedule 1 :: List.replicate 3 (.run 1 .go)

/-- The state in which process 1 calls `sys_sync`. -/
def atSync : Threads LogShared LogPc :=
  after (Threads.step (logCode 0x80010000)) freshLog syncCalled

/-- Process 1 has taken the lock. -/
def syncLocked : Threads LogShared LogPc :=
  after (Threads.step (logCode 0x80010000)) atSync [.run 1 .go]

/-- When `sys_sync` returns, block 50 has been installed. -/
theorem sync_barrier_twoOps : ∃ s,
    run (Threads.step (logCode 0x80010000)) freshLog (syncCalled ++ .run 1 .go :: syncReturns) =
      some s ∧ s.pcs 1 = .idle ∧ OnDisk s.sh 0 50 s.sh.disk := by
  have hcalled : run (Threads.step (logCode 0x80010000)) freshLog syncCalled = some atSync :=
    run_eq_some_after _ _ _ (by decide +kernel)
  have hlocked : Threads.step (logCode 0x80010000) atSync (.run 1 .go) = some syncLocked :=
    step_eq_some_after _ _ _ (by decide +kernel)
  have hreturned := run_eq_some_after (Threads.step (logCode 0x80010000)) syncLocked syncReturns
    (by decide +kernel)
  have hidle : (after (Threads.step (logCode 0x80010000)) syncLocked syncReturns).pcs 1 = .idle := by
    decide +kernel
  have hhome : ∀ a ∈ syncCalled ++ .run 1 .go :: syncReturns, HomeWrite 2 a := by
    decide +kernel
  have h := sync_barrier 0x80010000 2 1 .go freshLog atSync syncLocked _ syncCalled syncReturns
    freshLog_mounted hhome hcalled rfl hlocked hreturned (by decide +kernel) hidle
    { epoch := 0, writes := [(50, 0)] } (by decide +kernel)
  refine ⟨_, run_append_eq_some.mpr ⟨atSync, hcalled, run_cons_eq_some.mpr ⟨_, hlocked, hreturned⟩⟩,
    hidle, ?_⟩
  exact (h.2.2 (50, 0) List.mem_cons_self).1

end Xv6
