import Xv6.Log.Basic

/-!
# Crash atomicity of the log

The log of `kernel/log.c` is a redo log in the sense of `Xv6.Lib.RedoLog` (`redoLog`): the
header block says which writes are pending and the blocks after it hold their contents.  The
writes that `recover_from_log` issues are the recovery of that redo log
(`recoverFromLog_trace`), the ones `commit` issues are a commit of it (`commit_trace`), and
crash atomicity (`commit_crash_atomic`) is the composition of the two library theorems.
-/

namespace Xv6

open LogState List

/-! ## The header as a record -/

variable {b : Block} {i j tail : ℕ} {bs lh : List ℕ} {d d' : Disk} {s : LogState}

lemma get32_putHeadBlocks_of_lt {o : ℕ} (bs : List ℕ) (h : o + 4 ≤ 4 + 4 * i) :
    (putHeadBlocks b i bs).get32 o = b.get32 o := by
  induction bs generalizing b i with
  | nil => rfl
  | cons n bs ih =>
    rw [putHeadBlocks, ih (by omega), Bytes.get32_put32_of_disjoint (by omega)]

lemma get32_putHeadBlocks (hj : j < bs.length) :
    (putHeadBlocks b i bs).get32 (4 + 4 * (i + j)) = BitVec.ofNat 32 bs[j] := by
  induction bs generalizing b i j with
  | nil => exact absurd hj (Nat.not_lt_zero _)
  | cons n bs ih =>
    cases j with
    | zero =>
      rw [putHeadBlocks, get32_putHeadBlocks_of_lt bs (by omega)]
      exact Bytes.get32_put32 ..
    | succ j =>
      have hj' : j < bs.length := by simpa using hj
      rw [putHeadBlocks, show i + (j + 1) = i + 1 + j by omega, ih hj']
      rfl

lemma headN_putHead (h : lh.length ≤ LOGBLOCKS) :
    headN (putHead b lh) = lh.length := by
  have hlen : lh.length ≤ 30 := h
  rw [headN, putHead, get32_putHeadBlocks_of_lt lh (by omega), Bytes.get32_put32,
    BitVec.toInt_eq_toNat_of_lt (by rw [BitVec.toNat_ofNat]; omega), BitVec.toNat_ofNat]
  omega

lemma headBlock_putHead (hi : i < lh.length)
    (h32 : ∀ n ∈ lh, n < 2 ^ 32) : headBlock (putHead b lh) i = lh[i] := by
  have hget : (putHead b lh).get32 (4 + 4 * i) = BitVec.ofNat 32 lh[i] := by
    simpa [putHead] using get32_putHeadBlocks (b := b.put32 0 (BitVec.ofNat 32 lh.length))
      (i := 0) hi
  rw [headBlock, hget, BitVec.toNat_ofNat, Nat.mod_eq_of_lt (h32 _ (getElem_mem hi))]

/-- Erasing the header: `n` is zero whatever the entries say. -/
lemma headN_putHead_nil (b : Block) : headN (putHead b []) = 0 :=
  headN_putHead (Nat.zero_le _)

/-! ## The log as a redo log -/

/-- The blocks reserved for the log: the header and `LOGBLOCKS` data blocks. -/
def logArea (start : ℕ) : Set ℕ := {b | start ≤ b ∧ b ≤ start + LOGBLOCKS}

lemma start_mem_logArea (start : ℕ) : start ∈ logArea start := ⟨le_rfl, Nat.le_add_right ..⟩

lemma logBlock_mem_logArea {start : ℕ} (h : tail < LOGBLOCKS) :
    start + tail + 1 ∈ logArea start := ⟨by omega, by omega⟩

/-- The writes a disk's log says are pending.  A header written by the kernel never counts more
than `LOGBLOCKS` entries. -/
def pendingWrites (start : ℕ) (d : Disk) : List (ℕ × Block) :=
  (List.range (min (headN (d start)) LOGBLOCKS)).map fun i =>
    (headBlock (d start) i, d (start + i + 1))

/-- The log of the disk as a redo log. -/
def redoLog (start : ℕ) : RedoLog ℕ Block where
  area := logArea start
  pending := pendingWrites start
  pending_congr := by
    intro d d' h
    have hs : d start = d' start := h start (start_mem_logArea start)
    rw [pendingWrites, pendingWrites, hs]
    refine List.map_congr_left fun i hi => ?_
    have hi : i < LOGBLOCKS := lt_of_lt_of_le (List.mem_range.mp hi) (Nat.min_le_right ..)
    rw [h _ (logBlock_mem_logArea hi)]
  clear := fun d => (start, putHead (d start) [])
  clear_mem_area := fun _ => start_mem_logArea start
  pending_clear := by
    intro d
    rw [pendingWrites, write_self, headN_putHead_nil]
    rfl

/-! ## The code issues lists of writes -/

namespace LogState

/-- The effect of a list of `bwrite`s. -/
def emit (s : LogState) (ws : List (ℕ × Block)) : LogState :=
  { s with blk := writes s.blk ws, disk := writes s.disk ws, trace := s.trace ++ ws }

lemma emit_nil (s : LogState) : s.emit [] = s := by simp [emit]

lemma bwrite_eq_emit (s : LogState) (b : ℕ) (data : Block) :
    s.bwrite b data = s.emit [(b, data)] := rfl

lemma emit_emit (s : LogState) (ws vs : List (ℕ × Block)) :
    (s.emit ws).emit vs = s.emit (ws ++ vs) := by
  simp [emit, writes_append]

/-- The writes of `write_log` from `tail` on. -/
def logWrites (start : ℕ) (f : ℕ → Block) (tail : ℕ) : List ℕ → List (ℕ × Block)
  | [] => []
  | b :: bs => (start + tail + 1, f b) :: logWrites start f (tail + 1) bs

/-- The writes of `install_trans` from `tail` on, given the log blocks. -/
def installWrites (start : ℕ) (f : ℕ → Block) (tail : ℕ) : List ℕ → List (ℕ × Block)
  | [] => []
  | b :: bs => (b, f (start + tail + 1)) :: installWrites start f (tail + 1) bs

lemma length_logWrites (start : ℕ) (f : ℕ → Block) (tail : ℕ) (bs : List ℕ) :
    (logWrites start f tail bs).length = bs.length := by
  induction bs generalizing tail with
  | nil => rfl
  | cons b bs ih => simp [logWrites, ih]

variable {tail : ℕ} {f g : ℕ → Block} {bs : List ℕ} {s : LogState}

lemma mem_logWrites {start : ℕ} {w : ℕ × Block} (h : w ∈ logWrites start f tail bs) :
    start + tail + 1 ≤ w.1 ∧ w.1 ≤ start + tail + bs.length := by
  induction bs generalizing tail with
  | nil => exact absurd h not_mem_nil
  | cons b bs ih =>
    rw [length_cons]
    rcases mem_cons.mp h with rfl | h
    · dsimp only
      omega
    · have := ih h
      omega

lemma logWrites_congr {start : ℕ}
    (h : ∀ b ∈ bs, f b = g b) : logWrites start f tail bs = logWrites start g tail bs := by
  induction bs generalizing tail with
  | nil => rfl
  | cons b bs ih =>
    rw [logWrites, logWrites, h b mem_cons_self,
      ih fun c hc => h c (mem_cons_of_mem _ hc)]

lemma installWrites_congr {start : ℕ}
    (h : ∀ i, tail ≤ i → i < tail + bs.length → f (start + i + 1) = g (start + i + 1)) :
    installWrites start f tail bs = installWrites start g tail bs := by
  induction bs generalizing tail with
  | nil => rfl
  | cons b bs ih =>
    rw [length_cons] at h
    rw [installWrites, installWrites, h tail le_rfl (by omega),
      ih fun i hi hi' => h i (by omega) (by omega)]

lemma installWrites_eq_map (start : ℕ) (f : ℕ → Block) (tail : ℕ) (bs : List ℕ) :
    installWrites start f tail bs =
      (range bs.length).map fun i => (bs.getD i 0, f (start + (tail + i) + 1)) := by
  induction bs generalizing tail with
  | nil => rfl
  | cons b bs ih =>
    rw [installWrites, ih, length_cons, range_succ_eq_map, map_cons, map_map]
    congr 1
    refine map_congr_left fun i _ => ?_
    simp [show tail + 1 + i = tail + (i + 1) by omega]

/-- `write_log` issues the log writes: the blocks it reads are outside the log, which is all
it changes. -/
lemma writeLogFrom_eq (hout : ∀ b ∈ bs, b ∉ logArea s.start) (hlen : tail + bs.length ≤ LOGBLOCKS) :
    s.writeLogFrom tail bs = s.emit (logWrites s.start s.blk tail bs) := by
  induction bs generalizing s tail with
  | nil => exact (emit_nil s).symm
  | cons b bs ih =>
    rw [length_cons] at hlen
    have hkeep : ∀ c ∈ bs, (s.writeLogAt tail b).blk c = s.blk c := by
      intro c hc
      refine Function.update_of_ne ?_ ..
      rintro rfl
      exact hout _ (mem_cons_of_mem _ hc) (logBlock_mem_logArea (by omega))
    rw [writeLogFrom, ih (s := s.writeLogAt tail b)
      (fun c hc => hout c (mem_cons_of_mem _ hc)) (by omega), logWrites_congr hkeep,
      writeLogAt, bwrite_eq_emit, emit_emit]
    rfl

/-- `install_trans` issues the install writes; with `recovering` unset it also unpins. -/
lemma installTransFrom_eq {r : Bool}
    (hout : ∀ b ∈ bs, b ∉ logArea s.start) (hlen : tail + bs.length ≤ LOGBLOCKS) :
    ∃ p, s.installTransFrom r tail bs =
      { s.emit (installWrites s.start s.blk tail bs) with pins := p } := by
  induction bs generalizing s tail with
  | nil => exact ⟨s.pins, by rw [installTransFrom, installWrites, emit_nil]⟩
  | cons b bs ih =>
    rw [length_cons] at hlen
    obtain ⟨p, hp⟩ : ∃ p, s.installTransAt r tail b =
        { s.emit [(b, s.blk (s.start + tail + 1))] with pins := p } := by
      cases r
      · exact ⟨_, rfl⟩
      · exact ⟨s.pins, rfl⟩
    have hblk : (s.installTransAt r tail b).blk =
        writes s.blk [(b, s.blk (s.start + tail + 1))] := by rw [hp]; rfl
    have hstart : (s.installTransAt r tail b).start = s.start := by rw [hp]; rfl
    have hkeep : ∀ i, tail + 1 ≤ i → i < tail + 1 + bs.length →
        (s.installTransAt r tail b).blk (s.start + i + 1) = s.blk (s.start + i + 1) := by
      intro i hi hi'
      rw [hblk]
      refine write_of_ne ?_
      rintro rfl
      exact hout _ mem_cons_self (logBlock_mem_logArea (by omega))
    have hout' : ∀ c ∈ bs, c ∉ logArea (s.installTransAt r tail b).start := by
      intro c hc
      rw [hstart]
      exact hout c (mem_cons_of_mem _ hc)
    obtain ⟨q, hq⟩ := ih hout' (show tail + 1 + bs.length ≤ LOGBLOCKS by omega)
    refine ⟨q, ?_⟩
    rw [installTransFrom, hq, hstart, installWrites_congr hkeep, hp]
    simp [emit, installWrites]

end LogState

/-! ## Recovery -/

/-- A header as the kernel leaves it: at most `LOGBLOCKS` entries, all outside the log. -/
structure LogOk (start : ℕ) (d : Disk) : Prop where
  count : headN (d start) ≤ LOGBLOCKS
  homed : (redoLog start).Homed d

lemma LogOk.notMem_logArea {start : ℕ} (h : LogOk start d)
    (hi : i < headN (d start)) : headBlock (d start) i ∉ logArea start := by
  refine h.homed (headBlock (d start) i, d (start + i + 1)) ?_
  refine mem_map.mpr ⟨i, mem_range.mpr ?_, rfl⟩
  rwa [Nat.min_eq_left h.count]

/-- A disk with an empty header. -/
lemma logOk_of_headN_eq_zero {start : ℕ} (h : headN (d start) = 0) :
    LogOk start d := by
  refine ⟨by omega, RedoLog.homed_of_pending_nil ?_⟩
  change pendingWrites start d = []
  rw [pendingWrites, h]
  rfl

lemma pending_of_headN_eq_zero {start : ℕ} (h : headN (d start) = 0) :
    (redoLog start).pending d = [] := by
  change pendingWrites start d = []
  rw [pendingWrites, h]
  rfl

/-- `recover_from_log` issues the recovery of the redo log. -/
lemma recoverFromLog_eq {start : ℕ} (h : LogOk start d) :
    ∃ p, (boot start d).recoverFromLog =
      { (boot start d).emit ((redoLog start).recovery d) with pins := p } := by
  set bs := (range (headN (d start))).map (headBlock (d start)) with hbs
  have hread : (boot start d).readHead = { boot start d with lh := bs } := rfl
  have hlen : bs.length = headN (d start) := by simp [hbs]
  have hout : ∀ b ∈ bs, b ∉ logArea start := by
    intro b hb
    obtain ⟨i, hi, rfl⟩ := mem_map.mp hb
    exact h.notMem_logArea (mem_range.mp hi)
  obtain ⟨p, hp⟩ := installTransFrom_eq (s := { boot start d with lh := bs }) (r := true) hout
    (show 0 + bs.length ≤ LOGBLOCKS by have := h.count; omega)
  have hpend : installWrites start d 0 bs = pendingWrites start d := by
    rw [installWrites_eq_map, pendingWrites, Nat.min_eq_left h.count, hlen]
    refine map_congr_left fun i hi => ?_
    have hget : bs.getD i 0 = headBlock (d start) i := by
      simp [hbs, mem_range.mp hi]
    rw [hget, Nat.zero_add]
  have hinst : ({ boot start d with lh := bs } : LogState).installTrans true =
      { ({ boot start d with lh := bs } : LogState).emit (pendingWrites start d) with
        pins := p } := by
    rw [installTrans, hp]
    change { ({ boot start d with lh := bs } : LogState).emit (installWrites start d 0 bs) with
      pins := p } = _
    rw [hpend]
  have hstart : writes d (pendingWrites start d) start = d start :=
    writes_of_notMem fun w hw heq => h.homed w hw (heq ▸ start_mem_logArea start)
  refine ⟨p, ?_⟩
  rw [recoverFromLog, hread, hinst]
  simp only [clearHead, writeHead, bwrite, emit, boot, RedoLog.recovery, redoLog, hstart,
    nil_append, writes_append]
  rfl

/-- The disk writes of a recovery from disk `d`. -/
lemma recoverFromLog_trace {start : ℕ} (h : LogOk start d) :
    (boot start d).recoverFromLog.trace = (redoLog start).recovery d := by
  obtain ⟨p, hp⟩ := recoverFromLog_eq h
  rw [hp]
  simp [emit, boot]

/-- The disk after a recovery that ran to its end. -/
lemma recoverFromLog_disk {start : ℕ} (h : LogOk start d) :
    (boot start d).recoverFromLog.disk = writes d ((redoLog start).recovery d) := by
  obtain ⟨p, hp⟩ := recoverFromLog_eq h
  rw [hp]
  rfl

/-- A recovery from `d` that crashed somewhere left the disk `d'`. -/
def RecoveryCrash (start : ℕ) (d d' : Disk) : Prop :=
  ∃ k, d' = writes d ((boot start d).recoverFromLog.trace.take k)

/-- An interrupted recovery leaves a log that can be recovered again, with the same result. -/
lemma LogOk.recoveryCrash {start : ℕ} (h : LogOk start d) (hc : RecoveryCrash start d d') :
    LogOk start d' ∧
      (redoLog start).SameHome ((redoLog start).image d') ((redoLog start).image d) := by
  obtain ⟨k, rfl⟩ := hc
  rw [recoverFromLog_trace h]
  obtain ⟨hh, hi⟩ := RedoLog.image_recovery_take h.homed k
  refine ⟨⟨?_, hh⟩, hi⟩
  by_cases hk : k ≤ ((redoLog start).pending d).length
  · rw [RedoLog.recovery, take_append_of_le_length hk, writes_of_notMem]
    · exact h.count
    · intro w hw heq
      exact h.homed w (mem_of_mem_take hw) (heq ▸ start_mem_logArea start)
  · rw [take_of_length_le (by simp [RedoLog.recovery]; omega), RedoLog.recovery,
      writes_append]
    change headN (write _ (start, putHead (d start) []) start) ≤ LOGBLOCKS
    rw [write_self, headN_putHead_nil]
    exact Nat.zero_le _

lemma LogOk.recoveryCrashes {start : ℕ} (h : LogOk start d)
    (hc : Relation.ReflTransGen (RecoveryCrash start) d d') :
    LogOk start d' ∧
      (redoLog start).SameHome ((redoLog start).image d') ((redoLog start).image d) := by
  induction hc with
  | refl => exact ⟨h, RedoLog.SameHome.rfl⟩
  | tail _ hstep ih =>
    obtain ⟨hok, hsame⟩ := ih.1.recoveryCrash hstep
    exact ⟨hok, hsame.trans ih.2⟩

/-- A recovery that ran to its end leaves the image of the disk and an empty header. -/
lemma LogOk.recovered {start : ℕ} (h : LogOk start d) :
    (redoLog start).SameHome (boot start d).recoverFromLog.disk ((redoLog start).image d) ∧
      headN ((boot start d).recoverFromLog.disk start) = 0 := by
  rw [recoverFromLog_disk h]
  refine ⟨(RedoLog.recovery_complete h.homed).2, ?_⟩
  rw [RedoLog.recovery, writes_append]
  change headN (write _ (start, putHead (d start) []) start) = 0
  rw [write_self, headN_putHead_nil]

/-! ## Commit -/

/-- The state in which `commit` finds the log: the header on disk is empty, the log area is not
dirty in the cache, and the transaction is a list of at most `LOGBLOCKS` distinct block numbers
outside the log area. -/
structure CommitReady (s : LogState) : Prop where
  clean : headN (s.disk s.start) = 0
  coherent : ∀ b ∈ logArea s.start, s.blk b = s.disk b
  length_le : s.lh.length ≤ LOGBLOCKS
  nodup : s.lh.Nodup
  home : ∀ b ∈ s.lh, b ∉ logArea s.start
  lt : ∀ b ∈ s.lh, b < 2 ^ 32

lemma writes_logWrites {start : ℕ} {f : ℕ → Block} (hj : j < bs.length) :
    writes d (logWrites start f tail bs) (start + (tail + j) + 1) = f bs[j] := by
  induction bs generalizing d tail j with
  | nil => exact absurd hj (Nat.not_lt_zero _)
  | cons b bs ih =>
    cases j with
    | zero =>
      rw [logWrites, writes_cons, writes_of_notMem]
      · exact write_self ..
      · intro w hw
        have := mem_logWrites hw
        omega
    | succ j =>
      have hj' : j < bs.length := by simpa using hj
      rw [logWrites, writes_cons, show tail + (j + 1) = tail + 1 + j by omega, ih hj']
      rfl

/-- The transaction as a list of writes: each home block with its contents in the cache. -/
def LogState.trans (s : LogState) : List (ℕ × Block) := s.lh.map fun b => (b, s.blk b)

section

variable {s : LogState} (h : CommitReady s)
include h

lemma CommitReady.log_mem_area : ∀ w ∈ logWrites s.start s.blk 0 s.lh, w.1 ∈ logArea s.start := by
  intro w hw
  have := mem_logWrites hw
  have := h.length_le
  exact ⟨by omega, by omega⟩

lemma CommitReady.pending_log (k : ℕ) :
    (redoLog s.start).pending (writes s.disk ((logWrites s.start s.blk 0 s.lh).take k)) = [] := by
  refine pending_of_headN_eq_zero ?_
  rw [writes_of_notMem, h.clean]
  intro w hw
  have := mem_logWrites (mem_of_mem_take hw)
  omega

omit h in
lemma start_mem_area (s : LogState) : s.start ∈ logArea s.start := start_mem_logArea _

lemma CommitReady.pending_head :
    (redoLog s.start).pending (write (writes s.disk (logWrites s.start s.blk 0 s.lh))
      (s.start, putHead (s.disk s.start) s.lh)) = s.trans := by
  change pendingWrites s.start _ = _
  rw [pendingWrites, write_self, headN_putHead h.length_le, Nat.min_eq_left h.length_le,
    LogState.trans]
  refine ext_getElem (by simp) fun i hi _ => ?_
  have hi : i < s.lh.length := by simpa using hi
  simp only [getElem_map, getElem_range, headBlock_putHead hi h.lt]
  rw [write_of_ne (by dsimp only; omega)]
  have hlog : writes s.disk (logWrites s.start s.blk 0 s.lh) (s.start + (0 + i) + 1) =
      s.blk s.lh[i] := writes_logWrites hi
  rw [Nat.zero_add] at hlog
  rw [hlog]

lemma CommitReady.homed : ∀ w ∈ s.trans, w.1 ∉ logArea s.start := by
  intro w hw
  obtain ⟨b, hb, rfl⟩ := mem_map.mp hw
  exact h.home b hb

end

/-- `write_log` followed by the first `write_head`, as a commit of the redo log. -/
def LogState.commitPlan (s : LogState) (h : CommitReady s) :
    (redoLog s.start).Commit s.disk s.trans where
  log := logWrites s.start s.blk 0 s.lh
  head := (s.start, putHead (s.disk s.start) s.lh)
  log_mem_area := h.log_mem_area
  pending_log := h.pending_log
  head_mem_area := start_mem_area s
  pending_head := h.pending_head
  homed := h.homed

/-- The disk writes `commit` issues. -/
def LogState.commitTrace (s : LogState) : List (ℕ × Block) :=
  ({ s with trace := [] } : LogState).commit.trace

/-- The second half of the plan: install the transaction, then erase the header. -/
lemma recovery_committed (h : CommitReady s) :
    (redoLog s.start).recovery (s.commitPlan h).committed =
      s.trans ++ [(s.start, putHead (putHead (s.disk s.start) s.lh) [])] := by
  have hp : (redoLog s.start).pending (s.commitPlan h).committed = s.trans :=
    (s.commitPlan h).pending_head
  have hs : (s.commitPlan h).committed s.start = putHead (s.disk s.start) s.lh := write_self ..
  rw [RedoLog.recovery, hp, ← hs]
  rfl

/-- `write_log` and the first `write_head` issue the first half of the plan. -/
lemma writeLog_writeHead_eq (h : CommitReady s) :
    s.writeLog.writeHead = s.emit (logWrites s.start s.blk 0 s.lh ++
      [(s.start, putHead (s.disk s.start) s.lh)]) := by
  have hlog : s.writeLog = s.emit (logWrites s.start s.blk 0 s.lh) :=
    writeLogFrom_eq h.home (by have := h.length_le; omega)
  have hblk : writes s.blk (logWrites s.start s.blk 0 s.lh) s.start = s.disk s.start := by
    rw [writes_of_notMem, h.coherent _ (start_mem_logArea _)]
    intro w hw
    have := mem_logWrites hw
    omega
  rw [hlog, writeHead, bwrite_eq_emit, ← emit_emit]
  change (s.emit _).emit
    [(s.start, putHead (writes s.blk (logWrites s.start s.blk 0 s.lh) s.start) s.lh)] = _
  rw [hblk]

/-- `install_trans` copies from the cached log blocks, which `write_log` has just filled. -/
lemma installWrites_eq_trans (s : LogState) (head : Block) :
    installWrites s.start
      (writes s.blk (logWrites s.start s.blk 0 s.lh ++ [(s.start, head)])) 0 s.lh = s.trans := by
  rw [installWrites_eq_map, LogState.trans]
  refine ext_getElem (by simp) fun i hi _ => ?_
  have hi : i < s.lh.length := by simpa using hi
  have hval : writes s.blk (logWrites s.start s.blk 0 s.lh ++ [(s.start, head)])
      (s.start + (0 + i) + 1) = s.blk s.lh[i] := by
    rw [writes_append, writes_of_notMem]
    · exact writes_logWrites hi
    · intro w hw
      rw [mem_singleton.mp hw]
      dsimp only
      omega
  simp only [getElem_map, getElem_range, hval]
  simp [hi]

/-- `commit` on a non-empty transaction issues the writes of its plan. -/
lemma commit_eq (h : CommitReady s) (hne : s.lh ≠ []) :
    ∃ p, s.commit = { s.emit (s.commitPlan h).all with pins := p, lh := [] } := by
  set ws := logWrites s.start s.blk 0 s.lh ++ [(s.start, putHead (s.disk s.start) s.lh)] with hws
  obtain ⟨p, hp⟩ := installTransFrom_eq (s := s.emit ws) (r := false)
    h.home (show 0 + s.lh.length ≤ LOGBLOCKS by have := h.length_le; omega)
  have hinst : s.writeLog.writeHead.installTrans false =
      { (s.emit ws).emit s.trans with pins := p } := by
    rw [writeLog_writeHead_eq h, ← installWrites_eq_trans s (putHead (s.disk s.start) s.lh)]
    exact hp
  have hclear : writes (writes s.blk ws) s.trans s.start = putHead (s.disk s.start) s.lh := by
    rw [writes_of_notMem, hws, writes_append]
    · exact write_self _ (s.start, putHead (s.disk s.start) s.lh)
    · intro w hw heq
      exact (s.commitPlan h).homed w hw (heq ▸ start_mem_logArea s.start)
  have hall : (s.commitPlan h).all = ws ++ (s.trans ++
      [(s.start, putHead (putHead (s.disk s.start) s.lh) [])]) := by
    rw [RedoLog.Commit.all, recovery_committed h, hws, append_assoc]
    rfl
  refine ⟨p, ?_⟩
  rw [commit, if_pos (length_pos_iff.mpr hne), hinst, hall]
  simp only [clearHead, writeHead, bwrite, emit, hclear, writes_append, append_assoc]
  rfl

lemma commitTrace_eq (h : CommitReady s) (hne : s.lh ≠ []) :
    s.commitTrace = (s.commitPlan h).all := by
  obtain ⟨p, hp⟩ := commit_eq (s := { s with trace := [] }) ⟨h.1, h.2, h.3, h.4, h.5, h.6⟩ hne
  rw [commitTrace, hp]
  exact nil_append _

/-- The first `write_head` of `commit` is among the first `k` disk writes. -/
def HeadReached (s : LogState) (k : ℕ) : Prop := ∃ w ∈ s.commitTrace.take k, w.1 = s.start

lemma headReached_iff (h : CommitReady s) (hne : s.lh ≠ []) (k : ℕ) :
    HeadReached s k ↔ ¬k ≤ s.lh.length := by
  have hlen : (s.commitPlan h).log.length = s.lh.length := length_logWrites ..
  rw [HeadReached, commitTrace_eq h hne, RedoLog.Commit.all]
  constructor
  · rintro ⟨w, hw, hws⟩ hk
    rw [take_append_of_le_length (by omega)] at hw
    have := mem_logWrites (mem_of_mem_take hw)
    omega
  · intro hk
    refine ⟨(s.commitPlan h).head, ?_, rfl⟩
    obtain ⟨j, rfl⟩ : ∃ j, k = (s.commitPlan h).log.length + (j + 1) :=
      ⟨k - s.lh.length - 1, by omega⟩
    rw [take_length_add_append, take_succ_cons]
    exact mem_append_right _ mem_cons_self

lemma commitTrace_nil (h : s.lh = []) : s.commitTrace = [] := by
  simp [commitTrace, commit, h]

/-- A crash of `commit` leaves a log that can be recovered. -/
lemma logOk_commit_take (h : CommitReady s) (k : ℕ) :
    LogOk s.start (writes s.disk (s.commitTrace.take k)) := by
  by_cases hne : s.lh = []
  · rw [commitTrace_nil hne]
    exact logOk_of_headN_eq_zero (by simpa using h.clean)
  set C := s.commitPlan h
  have hlen : C.log.length = s.lh.length := length_logWrites ..
  rw [commitTrace_eq h hne]
  by_cases hk : k ≤ C.log.length
  · refine logOk_of_headN_eq_zero ?_
    rw [RedoLog.Commit.all, take_append_of_le_length hk, writes_of_notMem, h.clean]
    intro w hw
    have := mem_logWrites (mem_of_mem_take hw)
    omega
  · obtain ⟨j, rfl⟩ : ∃ j, k = C.log.length + (j + 1) := ⟨k - C.log.length - 1, by omega⟩
    have hhead : headN (C.committed s.start) = s.lh.length := by
      rw [show C.committed s.start = putHead (s.disk s.start) s.lh from write_self ..]
      exact headN_putHead h.length_le
    have hok : LogOk s.start C.committed := ⟨hhead ▸ h.length_le, C.homed_committed⟩
    rw [C.writes_all_take]
    exact (hok.recoveryCrash ⟨j, by rw [recoverFromLog_trace hok]⟩).1

/-- The image a crash of `commit` leaves is the disk before, or the disk with the whole
transaction written. -/
lemma image_commit_take (h : CommitReady s) (k : ℕ) [Decidable (HeadReached s k)] :
    (redoLog s.start).SameHome ((redoLog s.start).image (writes s.disk (s.commitTrace.take k)))
      (if HeadReached s k then writes s.disk s.trans else s.disk) := by
  by_cases hne : s.lh = []
  · have hnot : ¬HeadReached s k := by
      rintro ⟨w, hw, -⟩
      rw [commitTrace_nil hne] at hw
      simp at hw
    rw [if_neg hnot, commitTrace_nil hne, take_nil, writes_nil,
      RedoLog.image_of_pending_nil (pending_of_headN_eq_zero h.clean)]
    exact RedoLog.SameHome.rfl
  · have hlen : (s.commitPlan h).log.length = s.lh.length := length_logWrites ..
    have himg := ((s.commitPlan h).image_take k).2
    rw [commitTrace_eq h hne]
    by_cases hk : k ≤ s.lh.length
    · rw [if_neg (mt (headReached_iff h hne k).mp (not_not.mpr hk))]
      rwa [if_pos (by omega)] at himg
    · rw [if_pos ((headReached_iff h hne k).mpr hk)]
      rwa [if_neg (by omega)] at himg

lemma map_fst_trans (s : LogState) : s.trans.map Prod.fst = s.lh := by
  simp [LogState.trans, Function.comp_def]

/-- What the transaction leaves at a block. -/
lemma writes_trans (h : s.lh.Nodup) (d : Disk) (b : ℕ) :
    writes d s.trans b = if b ∈ s.lh then s.blk b else d b := by
  split
  case isTrue hmem =>
    have hw : (b, s.blk b) ∈ s.trans := mem_map_of_mem hmem
    exact writes_of_mem (by rw [map_fst_trans]; exact h) hw
  case isFalse hmem =>
    refine writes_of_notMem fun w hw heq => hmem ?_
    rw [← heq, ← map_fst_trans s]
    exact mem_map_of_mem hw

/-- A crash of `commit`, any number of crashed recoveries and a recovery that runs to its end. -/
lemma recovered_of_crash (h : CommitReady s) {k : ℕ} [Decidable (HeadReached s k)]
    (hd : Relation.ReflTransGen (RecoveryCrash s.start)
      (writes s.disk (s.commitTrace.take k)) d) :
    (redoLog s.start).SameHome (boot s.start d).recoverFromLog.disk
      (if HeadReached s k then writes s.disk s.trans else s.disk) ∧
      headN ((boot s.start d).recoverFromLog.disk s.start) = 0 := by
  obtain ⟨hok, hsame⟩ := (logOk_commit_take h k).recoveryCrashes hd
  obtain ⟨hrec, hhead⟩ := hok.recovered
  exact ⟨(hrec.trans hsame).trans (image_commit_take h k), hhead⟩

/-- **Crash atomicity of the log.**  `commit` crashes after any number `k` of its disk writes,
any number of recoveries crash after it, and then one runs to its end.  The home blocks then
hold all their new contents if the first `write_head` had reached the disk and all their old
contents otherwise, no other block outside the log has changed, and the header is empty. -/
theorem commit_crash_atomic (s : LogState) (h : CommitReady s) (k : ℕ) (d : Disk)
    (hd : Relation.ReflTransGen (RecoveryCrash s.start)
      (writes s.disk (s.commitTrace.take k)) d) :
    (HeadReached s k → ∀ b ∈ s.lh, (boot s.start d).recoverFromLog.disk b = s.blk b) ∧
      (¬HeadReached s k → ∀ b ∈ s.lh, (boot s.start d).recoverFromLog.disk b = s.disk b) ∧
      (∀ b ∉ logArea s.start, b ∉ s.lh →
        (boot s.start d).recoverFromLog.disk b = s.disk b) ∧
      headN ((boot s.start d).recoverFromLog.disk s.start) = 0 := by
  classical
  obtain ⟨himg, hhead⟩ := recovered_of_crash h hd
  refine ⟨fun hk b hb => ?_, fun hk b hb => ?_, fun b hb hnb => ?_, hhead⟩
  · rw [himg b (h.home b hb), if_pos hk, writes_trans h.nodup, if_pos hb]
  · rw [himg b (h.home b hb), if_neg hk]
  · rw [himg b hb]
    split
    · rw [writes_trans h.nodup, if_neg hnb]
    · rfl

/-- A transaction: blocks 50 and 51 of an empty disk are to be filled with sevens. -/
def twoBlocks : LogState where
  disk := fun _ _ => 0
  blk := fun b _ => if b = 50 ∨ b = 51 then 7 else 0
  pins := fun b => if b = 50 ∨ b = 51 then 1 else 0
  start := 2
  outstanding := 0
  committing := true
  ncommit := 0
  lh := [50, 51]
  trace := []

lemma twoBlocks_ready : CommitReady twoBlocks where
  clean := by decide
  coherent := by
    rintro b ⟨hlo, hhi⟩
    have hhi : b ≤ 2 + 30 := hhi
    have hb : ¬(b = 50 ∨ b = 51) := by omega
    simp [twoBlocks, hb]
  length_le := by decide
  nodup := by decide
  home := by
    intro b hb
    have hb : b = 50 ∨ b = 51 := by simpa [twoBlocks] using hb
    rintro ⟨-, hhi⟩
    have hhi : b ≤ 2 + 30 := hhi
    omega
  lt := by decide

/-- The disk after a crash of its commit after `k` writes, and a recovery. -/
def crashedAfter (k : ℕ) : Disk :=
  (boot 2 (writes twoBlocks.disk (twoBlocks.commitTrace.take k))).recoverFromLog.disk

/-- Crashed right after the first `write_head`, the transaction is completed by recovery; crashed
between the two blocks of the log, it is lost. -/
theorem commit_crash_atomic_twoBlocks :
    crashedAfter 3 50 = (fun _ => 7) ∧ crashedAfter 3 51 = (fun _ => 7) ∧
    crashedAfter 1 50 = (fun _ => 0) ∧ crashedAfter 1 51 = fun _ => 0 := by
  have hiff := headReached_iff twoBlocks_ready (by decide)
  have hnew := (commit_crash_atomic twoBlocks twoBlocks_ready 3 _ .refl).1 ((hiff 3).mpr (by decide))
  have hold := (commit_crash_atomic twoBlocks twoBlocks_ready 1 _ .refl).2.1
    ((hiff 1).not.mpr (by decide))
  exact ⟨hnew 50 (by decide), hnew 51 (by decide), hold 50 (by decide), hold 51 (by decide)⟩

/-! ## The log between transactions -/

/-- `commit` leaves the disk with the whole transaction written, the cache in agreement with the
disk wherever it was before and on the transaction, and the header empty: the log is again as
`commit` needs it. -/
lemma commit_complete (h : CommitReady s) :
    (redoLog s.start).SameHome s.commit.disk (writes s.disk s.trans) ∧
      headN (s.commit.disk s.start) = 0 ∧
      (∀ b ∈ logArea s.start, s.commit.blk b = s.commit.disk b) ∧
      (∀ b ∉ logArea s.start, s.commit.blk b = s.blk b) ∧
      s.commit.lh = [] ∧ s.commit.trace = s.trace ++ s.commitTrace := by
  by_cases hne : s.lh = []
  · have hc : s.commit = s := by simp [commit, hne]
    rw [hc, commitTrace_nil hne, append_nil, LogState.trans, hne]
    exact ⟨RedoLog.SameHome.rfl, h.clean, h.coherent, fun _ _ => rfl, rfl, rfl⟩
  obtain ⟨p, hp⟩ := commit_eq h hne
  set C := s.commitPlan h
  have hdisk : s.commit.disk = writes s.disk C.all := by rw [hp]; rfl
  have hblk : s.commit.blk = writes s.blk C.all := by rw [hp]; rfl
  refine ⟨?_, ?_, ?_, ?_, by rw [hp], ?_⟩
  · rw [hdisk]
    exact C.complete.2
  · rw [hdisk, RedoLog.Commit.all, recovery_committed h, writes_append, writes_cons, writes_append]
    change headN (write _ (s.start, _) s.start) = 0
    rw [write_self, headN_putHead_nil]
  · intro b hb
    rw [hdisk, hblk]
    exact writes_congr (Or.inr (h.coherent b hb))
  · intro b hb
    rw [hblk, RedoLog.Commit.all, recovery_committed h]
    -- Outside the log only the install writes count, and they write what the cache holds.
    refine writes_of_forall_eq rfl fun w hw heq => ?_
    have harea : w.1 ∉ logArea s.start := heq ▸ hb
    rcases mem_append.mp hw with hw | hw
    · exact absurd (C.log_mem_area w hw) harea
    rcases mem_cons.mp hw with rfl | hw
    · exact absurd C.head_mem_area harea
    rcases mem_append.mp hw with hw | hw
    · obtain ⟨c, -, rfl⟩ := mem_map.mp hw
      rw [← heq]
    · rw [mem_singleton.mp hw] at harea
      exact absurd (start_mem_logArea s.start) harea
  · rw [commitTrace_eq h hne, hp]
    rfl

end Xv6
