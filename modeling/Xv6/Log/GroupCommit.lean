import Xv6.Lib.Account
import Xv6.Log.Ops

/-!
# Group commit

Any number of operations may be inside their brackets at once, and what they log is committed
together by the last one to leave.  The invariant (`GroupInv`) ties `log.outstanding` to the threads
inside a bracket, `log.committing` to the one thread that commits, and the state of the log to how
far the commit has come: from `end_op`'s test on, the log evolves exactly as `commit()` does when it
runs alone (`CommitAt`).
-/

namespace Xv6

open Finset Function

namespace LogPc

/-- The operation a thread is inside of: admitted by `begin_op` and not yet counted out by
`end_op`. -/
@[simp] def op : LogPc → Option LogOp
  | .bRelease op | .inOp op | .lAcquire op _ | .lTest op _ | .lRelease op | .eAcquire op
  | .eTest op => some op
  | _ => none

/-- The positions of the thread that commits. -/
@[simp] def commits : LogPc → Bool
  | .eUnlock | .cTest | .cLog _ | .cHead | .cInstall _ | .cClear | .cErase | .cAcquire
  | .cDone => true
  | _ => false

/-- The block that a thread is about to log, with its operation. -/
@[simp] def pending : LogPc → Option (LogOp × ℕ)
  | .lAcquire op b | .lTest op b => some (op, b)
  | _ => none

/-- How far a commit that started in state `st` has come. -/
@[simp] def CommitAt (st : LogState) : LogPc → LogState → Prop
  | .eUnlock, s | .cTest, s => s = st
  | .cLog k, s => s = st.writeLogFrom 0 (st.lh.take k) ∧ 0 < st.lh.length
  | .cHead, s => s = st.writeLog ∧ 0 < st.lh.length
  | .cInstall k, s => s = st.writeLog.writeHead.installTransFrom false 0 (st.lh.take k) ∧ 0 < st.lh.length
  | .cClear, s => s = st.writeLog.writeHead.installTrans false ∧ 0 < st.lh.length
  | .cErase, s => s = (st.writeLog.writeHead.installTrans false).clearHead ∧ 0 < st.lh.length
  | .cAcquire, s | .cDone, s => s = st.commit
  | _, _ => True

end LogPc

/-- What an action of the log's code can do. -/
inductive LogAct : LogPc → LogShared → LogPc → LogShared → Prop
  | call (x l) (h : l = .bAcquire ∨ l = .sAcquire) : LogAct .idle x l x
  | wait (x) (h : x.committing = true ∨ x.NoSpace) : LogAct .bTest x .bPrepare x
  | enter (x : LogShared) (h : x.committing = false) (hspace : ¬x.NoSpace) :
    LogAct .bTest x (.bRelease { epoch := x.commits.length, writes := [] })
      { x with outstanding := x.outstanding + 1 }
  | modify (op) (x : LogShared) (b data) :
    LogAct (.inOp op) x (.lAcquire op b) { x with blk := update x.blk b data }
  | leave (op x) : LogAct (.inOp op) x (.eAcquire op) x
  | absorb (op b) (x : LogShared) (hlen : x.lh.length < LOGBLOCKS) (h : b ∈ x.lh) :
    LogAct (.lTest op b) x
      (.lRelease { op with writes := op.writes ++ [(b, x.commits.length)] }) x
  | add (op b) (x : LogShared) (hlen : x.lh.length < LOGBLOCKS) (h : b ∉ x.lh) :
    LogAct (.lTest op b) x
      (.lRelease { op with writes := op.writes ++ [(b, x.commits.length)] })
      { x with toLogState := { x.toLogState.bpin b with lh := x.lh ++ [b] } }
  | last (op) (x : LogShared) (h : x.outstanding - 1 = 0) (hc : x.committing = false) :
    LogAct (.eTest op) x .eUnlock
      { x with
        outstanding := 0
        committing := true
        ended := x.ended ++ [op]
        commits := x.commits ++ [{ x.toLogState with outstanding := 0, committing := true }] }
  | more (op) (x : LogShared) (h : x.outstanding - 1 ≠ 0) (hc : x.committing = false) :
    LogAct (.eTest op) x .eWake
      { x with outstanding := x.outstanding - 1, ended := x.ended ++ [op] }
  | empty (x : LogShared) (h : x.lh.length = 0) : LogAct .cTest x .cAcquire x
  | start (x : LogShared) (h : 0 < x.lh.length) : LogAct .cTest x (.cLog 0) x
  | log (k b) (x : LogShared) (h : x.lh[k]? = some b) :
    LogAct (.cLog k) x (.cLog (k + 1)) { x with toLogState := x.toLogState.writeLogAt k b }
  | logEnd (k) (x : LogShared) (h : x.lh[k]? = none) : LogAct (.cLog k) x .cHead x
  | head (x : LogShared) :
    LogAct .cHead x (.cInstall 0) { x with toLogState := x.toLogState.writeHead }
  | install (k b) (x : LogShared) (h : x.lh[k]? = some b) :
    LogAct (.cInstall k) x (.cInstall (k + 1))
      { x with toLogState := x.toLogState.installTransAt false k b }
  | installEnd (k) (x : LogShared) (h : x.lh[k]? = none) : LogAct (.cInstall k) x .cClear x
  | clear (x : LogShared) :
    LogAct .cClear x .cErase { x with toLogState := x.toLogState.clearHead }
  | erase (x : LogShared) :
    LogAct .cErase x .cAcquire { x with toLogState := x.toLogState.writeHead }
  | done (x : LogShared) :
    LogAct .cDone x .cWake { x with committing := false, ncommit := x.ncommit + 1 }
  | syncWait (x : LogShared) (h : x.committing = true ∨ x.outstanding > 0) :
    LogAct .sTest x (.sLoop (x.ncommit + 1)) x
  | syncIdle (x : LogShared) (h : ¬(x.committing = true ∨ x.outstanding > 0)) :
    LogAct .sTest x .sRelease x
  | syncMore (n) (x : LogShared) (h : x.ncommit < n) : LogAct (.sLoop n) x (.sPrepare n) x
  | syncEnd (n) (x : LogShared) (h : ¬x.ncommit < n) : LogAct (.sLoop n) x .sRelease x

variable {chan b t : ℕ} {l l' : LogPc} {f : LogShared → LogChoice → Outcome LogShared LogPc}
  {x x' : LogShared} {msg : String} {s s' : Threads LogShared LogPc} {a : ThreadStep LogChoice}

lemma logAct_of_next {ch : LogChoice} (hl : logCode chan l = .act f)
    (h : f x ch = .next x' l') : LogAct l x l' x' := by
  cases l with
  | idle =>
    cases hl
    cases ch <;> cases h <;> exact .call _ _ (by simp)
  | bTest =>
    cases hl
    simp only [LogShared.beginOp] at h
    split_ifs at h with hc hs
    · cases h
      exact .wait _ (Or.inl hc)
    · cases h
      exact .wait _ (Or.inr hs)
    · cases h
      exact .enter _ (by simpa using hc) hs
  | inOp op =>
    cases hl
    cases ch <;> cases h
    · exact .modify ..
    · exact .leave ..
  | lTest op b =>
    cases hl
    simp only [LogShared.logWrite] at h
    split_ifs at h with hlen hout hb
    · cases h
      exact .absorb _ _ _ (by omega) hb
    · cases h
      exact .add _ _ _ (by omega) hb
  | eTest op =>
    cases hl
    simp only [LogShared.endOp] at h
    split_ifs at h with hc ho
    · cases h
      have hc : x.committing = false := by simpa using hc
      rw [ho]
      exact .last _ _ ho hc
    · cases h
      exact .more _ _ ho (by simpa using hc)
  | cTest =>
    cases hl
    dsimp only at h
    split_ifs at h with hlen
    · cases h
      exact .start _ hlen
    · cases h
      exact .empty _ (by omega)
  | cLog k =>
    cases hl
    dsimp only at h
    split at h
    · cases h
      exact .log _ _ _ ‹_›
    · cases h
      exact .logEnd _ _ ‹_›
  | cInstall k =>
    cases hl
    dsimp only at h
    split at h
    · cases h
      exact .install _ _ _ ‹_›
    · cases h
      exact .installEnd _ _ ‹_›
  | cHead =>
    cases hl
    cases h
    exact .head _
  | cClear =>
    cases hl
    cases h
    exact .clear _
  | cErase =>
    cases hl
    cases h
    exact .erase _
  | cDone =>
    cases hl
    cases h
    exact .done _
  | sTest =>
    cases hl
    dsimp only at h
    split_ifs at h with hw
    · cases h
      exact .syncWait _ hw
    · cases h
      exact .syncIdle _ hw
  | sLoop n =>
    cases hl
    dsimp only at h
    split_ifs at h with hw
    · cases h
      exact .syncMore _ _ hw
    · cases h
      exact .syncEnd _ _ hw
  | _ => cases hl

/-- An operation goes to `log_write` only to log the block that it has chosen. -/
lemma choice_of_lAcquire {op op' : LogOp} {ch : LogChoice}
    (hl : logCode chan (.inOp op) = .act f) (h : f x ch = .next x' (.lAcquire op' b)) :
    ∃ data, ch = .write b data := by
  cases hl
  cases ch with
  | write c data =>
    obtain ⟨-, rfl⟩ := LogPc.lAcquire.inj (Outcome.next.inj h).2
    exact ⟨data, rfl⟩
  | endOp => cases h
  | _ => cases h

/-- Where and why an action of the log's code panics. -/
inductive LogPanic : LogPc → LogShared → String → Prop
  | tooBig (op b) (x : LogShared) (h : LOGBLOCKS ≤ x.lh.length) :
    LogPanic (.lTest op b) x "too big a transaction"
  | outside (op b) (x : LogShared) (h : x.outstanding < 1) :
    LogPanic (.lTest op b) x "log_write outside of trans"
  | committing (op) (x : LogShared) (h : x.committing = true) :
    LogPanic (.eTest op) x "log.committing"

lemma logPanic_of_panic {ch : LogChoice} (hl : logCode chan l = .act f)
    (h : f x ch = .panic msg) : LogPanic l x msg := by
  cases l with
  | idle | inOp => cases hl; cases ch <;> cases h
  | bTest =>
    cases hl
    simp only [LogShared.beginOp] at h
    split_ifs at h
  | lTest op b =>
    cases hl
    simp only [LogShared.logWrite] at h
    split_ifs at h with hlen hout
    · cases h
      exact .tooBig _ _ _ hlen
    · cases h
      exact .outside _ _ _ hout
  | eTest op =>
    cases hl
    simp only [LogShared.endOp] at h
    split_ifs at h with hc
    cases h
    exact .committing _ _ hc
  | cTest | sTest | sLoop =>
    cases hl
    dsimp only at h
    split_ifs at h
  | cLog k | cInstall k =>
    cases hl
    dsimp only at h
    split at h <;> cases h
  | cHead | cClear | cErase | cDone => cases hl; cases h
  | _ => cases hl

/-! ## The log while a commit is running -/

namespace LogState

/-- The log pins the listed blocks, and no others. -/
def Pinned (s : LogState) : Prop := ∀ b, s.pins b = if b ∈ s.lh then 1 else 0

lemma writeLogFrom_append (s : LogState) (k : ℕ) (bs cs : List ℕ) :
    s.writeLogFrom k (bs ++ cs) = (s.writeLogFrom k bs).writeLogFrom (k + bs.length) cs := by
  induction bs generalizing s k with
  | nil => rfl
  | cons c bs ih =>
    rw [List.cons_append, writeLogFrom, ih, writeLogFrom, List.length_cons]
    congr 1
    omega

lemma installTransFrom_append (s : LogState) (r : Bool) (k : ℕ) (bs cs : List ℕ) :
    s.installTransFrom r k (bs ++ cs) =
      (s.installTransFrom r k bs).installTransFrom r (k + bs.length) cs := by
  induction bs generalizing s k with
  | nil => rfl
  | cons c bs ih =>
    rw [List.cons_append, installTransFrom, ih, installTransFrom, List.length_cons]
    congr 1
    omega

@[simp] lemma writeLogFrom_lh (s : LogState) (k : ℕ) (bs : List ℕ) :
    (s.writeLogFrom k bs).lh = s.lh := by
  induction bs generalizing s k with
  | nil => rfl
  | cons b bs ih => rw [writeLogFrom, ih]; rfl

@[simp] lemma writeLogFrom_pins (s : LogState) (k : ℕ) (bs : List ℕ) :
    (s.writeLogFrom k bs).pins = s.pins := by
  induction bs generalizing s k with
  | nil => rfl
  | cons b bs ih => rw [writeLogFrom, ih]; rfl

@[simp] lemma installTransAt_lh (s : LogState) (r : Bool) (k b : ℕ) :
    (s.installTransAt r k b).lh = s.lh := by
  cases r <;> rfl

@[simp] lemma installTransFrom_lh (s : LogState) (r : Bool) (k : ℕ) (bs : List ℕ) :
    (s.installTransFrom r k bs).lh = s.lh := by
  induction bs generalizing s k with
  | nil => rfl
  | cons b bs ih => rw [installTransFrom, ih, installTransAt_lh]

lemma installTransFrom_pins (s : LogState) (k : ℕ) (bs : List ℕ) (b : ℕ) :
    (s.installTransFrom false k bs).pins b = s.pins b - bs.count b := by
  induction bs generalizing s k with
  | nil => rfl
  | cons c bs ih =>
    rw [installTransFrom, ih]
    by_cases hc : c = b
    · subst hc
      simp only [installTransAt, Bool.false_eq_true, if_false, bunpin, bwrite,
        update_self, List.count_cons_self]
      omega
    · rw [List.count_cons_of_ne hc]
      simp [installTransAt, bunpin, bwrite, Ne.symm hc]

lemma commit_lh (s : LogState) : s.commit.lh = [] := by
  unfold commit
  split
  · rfl
  · exact List.eq_nil_of_length_eq_zero (by omega)

/-- A commit takes back every pin. -/
lemma commit_pins {s : LogState} (hp : s.Pinned) (b : ℕ) : s.commit.pins b = 0 := by
  unfold commit
  split
  · change ((s.writeLog.writeHead).installTransFrom false 0 _).pins b = 0
    rw [installTransFrom_pins]
    change (s.writeLogFrom 0 s.lh).pins b - List.count b (s.writeLogFrom 0 s.lh).lh = 0
    rw [writeLogFrom_pins, writeLogFrom_lh, hp b]
    split
    · have := List.count_pos_iff.mpr ‹b ∈ s.lh›
      omega
    · omega
  · have : s.lh = [] := List.eq_nil_of_length_eq_zero (by omega)
    simp [hp b, this]

end LogState

lemma take_succ_of_getElem? {bs : List ℕ} {k : ℕ} (h : bs[k]? = some b) :
    bs.take (k + 1) = bs.take k ++ [b] ∧ (bs.take k).length = k := by
  have hk : k < bs.length := (List.getElem?_eq_some_iff.mp h).1
  rw [List.take_add_one, h, List.length_take]
  exact ⟨rfl, by omega⟩

/-- Each action of the committing thread takes the commit one step further. -/
lemma LogAct.commitAt (h : LogAct l x l' x')
    (hl : l.commits = true) (hl' : l'.commits = true) {st : LogState}
    (hat : l.CommitAt st x.toLogState) : l'.CommitAt st x'.toLogState := by
  cases h with
  | empty x hlen =>
    obtain rfl : x.toLogState = st := hat
    simp [LogState.commit, hlen]
  | start x hlen =>
    obtain rfl : x.toLogState = st := hat
    exact ⟨rfl, hlen⟩
  | log k b x hb =>
    obtain ⟨hst, hlen⟩ := hat
    rw [hst, LogState.writeLogFrom_lh] at hb
    obtain ⟨htake, hk⟩ := take_succ_of_getElem? hb
    refine ⟨?_, hlen⟩
    rw [htake, LogState.writeLogFrom_append, hk, ← hst, Nat.zero_add]
    rfl
  | logEnd k x hk =>
    obtain ⟨hst, hlen⟩ := hat
    rw [hst, LogState.writeLogFrom_lh] at hk
    rw [List.take_of_length_le (List.getElem?_eq_none_iff.mp hk)] at hst
    exact ⟨hst, hlen⟩
  | head x =>
    obtain ⟨hst, hlen⟩ := hat
    refine ⟨?_, hlen⟩
    rw [hst]
    rfl
  | install k b x hb =>
    obtain ⟨hst, hlen⟩ := hat
    rw [hst, LogState.installTransFrom_lh] at hb
    change (st.writeLogFrom 0 st.lh).lh[k]? = some b at hb
    rw [LogState.writeLogFrom_lh] at hb
    obtain ⟨htake, hk⟩ := take_succ_of_getElem? hb
    refine ⟨?_, hlen⟩
    rw [htake, LogState.installTransFrom_append, hk, ← hst, Nat.zero_add]
    rfl
  | installEnd k x hk =>
    obtain ⟨hst, hlen⟩ := hat
    rw [hst, LogState.installTransFrom_lh] at hk
    change (st.writeLogFrom 0 st.lh).lh[k]? = none at hk
    rw [LogState.writeLogFrom_lh] at hk
    rw [List.take_of_length_le (List.getElem?_eq_none_iff.mp hk)] at hst
    refine ⟨?_, hlen⟩
    rw [hst, LogState.installTrans]
    congr 1
    exact (LogState.writeLogFrom_lh ..).symm
  | clear x =>
    obtain ⟨hst, hlen⟩ := hat
    refine ⟨?_, hlen⟩
    rw [hst]
  | erase x =>
    obtain ⟨hst, hlen⟩ := hat
    change x.toLogState.writeHead = st.commit
    rw [hst, LogState.commit, if_pos hlen]
  | _ => simp at hl hl'

/-! ## The invariant -/

/-- An operation none of whose blocks has been committed: all of them are listed. -/
def LogOp.Open (op : LogOp) (x : LogShared) : Prop :=
  op.epoch = x.commits.length ∧ ∀ w ∈ op.writes, w.2 = op.epoch ∧ w.1 ∈ x.lh

/-- An operation all of whose blocks are in the transaction of one commit. -/
def LogOp.Committed (op : LogOp) (x : LogShared) : Prop :=
  ∃ st, x.commits[op.epoch]? = some st ∧ ∀ w ∈ op.writes, w.2 = op.epoch ∧ w.1 ∈ st.lh

/-- The number of threads inside an operation. -/
def opCount (pcs : ℕ → LogPc) : ℤ := ∑ t ∈ range NPROC, if (pcs t).op.isSome then 1 else 0

lemma opCount_update {pcs : ℕ → LogPc} (ht : t < NPROC) (l : LogPc) :
    opCount (update pcs t l) =
      opCount pcs + (if l.op.isSome then 1 else 0) - (if (pcs t).op.isSome then 1 else 0) := by
  have hsum := sum_update_add (fun l : LogPc => if l.op.isSome then (1 : ℤ) else 0) pcs
    (mem_range.mpr ht) l
  rw [opCount, opCount]
  exact eq_sub_of_add_eq hsum

lemma opCount_pos {pcs : ℕ → LogPc} (ht : t < NPROC) (h : (pcs t).op.isSome = true) :
    0 < opCount pcs := by
  refine sum_pos' (fun u _ => ?_) ⟨t, mem_range.mpr ht, by rw [if_pos h]; exact one_pos⟩
  split <;> decide

/-- The invariant of group commit. -/
structure GroupInv (x : LogShared) (pcs : ℕ → LogPc) : Prop where
  idle : ∀ t, NPROC ≤ t → pcs t = .idle
  outstanding : x.outstanding = opCount pcs
  committing : ∀ t, (pcs t).commits = true → x.committing = true
  alone : ∀ t u, (pcs t).commits = true → (pcs u).commits = true → t = u
  quiet : x.committing = true → x.outstanding = 0
  op : ∀ t op, (pcs t).op = some op → op.Open x
  ended : ∀ op ∈ x.ended, (x.committing = false ∧ op.Open x) ∨ op.Committed x
  nodup : x.lh.Nodup
  pinned : x.committing = false → x.toLogState.Pinned
  commit : ∀ t, (pcs t).commits = true →
    ∃ st, x.commits.getLast? = some st ∧ st.Pinned ∧ (pcs t).CommitAt st x.toLogState

namespace GroupInv

variable {x x' : LogShared} {pcs : ℕ → LogPc} {t : ℕ} {l' : LogPc}

section

variable (h : GroupInv x pcs)
include h

lemma lt_of_op {op : LogOp} (hop : (pcs t).op = some op) : t < NPROC := by
  by_contra hlt
  rw [h.idle t (by omega)] at hop
  exact absurd hop (by simp)

/-- While an operation is inside its bracket nobody commits. -/
lemma not_committing_of_op {op : LogOp} (hop : (pcs t).op = some op) : x.committing = false := by
  by_contra hc
  have hpos := opCount_pos (h.lt_of_op hop) (by rw [hop]; rfl)
  rw [← h.outstanding, h.quiet (by simpa using hc)] at hpos
  exact absurd hpos (by decide)

lemma op_of_committing (hc : x.committing = true) (t : ℕ) : (pcs t).op = none := by
  by_contra hop
  obtain ⟨op, hop⟩ := Option.ne_none_iff_exists'.mp hop
  rw [h.not_committing_of_op hop] at hc
  exact absurd hc (by decide)

lemma commits_of_not_committing (hc : x.committing = false) (t : ℕ) : (pcs t).commits = false := by
  by_contra ht
  rw [h.committing t (by simpa using ht)] at hc
  exact absurd hc (by decide)

variable (ht : t < NPROC)
include ht

lemma idle_update (u : ℕ) (hu : NPROC ≤ u) : update pcs t l' u = .idle := by
  rw [update_of_ne (by omega)]
  exact h.idle u hu

/-- A thread moves on within the same operation, or the same commit. -/
lemma move (hop : l'.op = (pcs t).op) (hc : l'.commits = (pcs t).commits)
    (hat : ∀ st, (pcs t).CommitAt st x.toLogState → l'.CommitAt st x.toLogState) :
    GroupInv x (update pcs t l') := by
  have hop' : ∀ u, (update pcs t l' u).op = (pcs u).op := proj_update LogPc.op hop
  have hc' : ∀ u, (update pcs t l' u).commits = (pcs u).commits := proj_update LogPc.commits hc
  refine ⟨fun u hu => h.idle_update ht u hu, ?_, fun u hu => h.committing u ((hc' u).symm.trans hu),
    fun u v hu hv => h.alone u v ((hc' u).symm.trans hu) ((hc' v).symm.trans hv), h.quiet,
    fun u op hu => h.op u op ((hop' u).symm.trans hu), h.ended, h.nodup, h.pinned, fun u hu => ?_⟩
  · rw [h.outstanding, opCount_update ht, hop]
    ring
  · obtain ⟨st, hlast, hp, hst⟩ := h.commit u ((hc' u).symm.trans hu)
    refine ⟨st, hlast, hp, ?_⟩
    by_cases hut : u = t
    · subst hut
      rw [update_self]
      exact hat st hst
    · rwa [update_of_ne hut]

/-- A thread acts while nobody commits, and does not start to. -/
lemma act_of_not_committing (hc : x.committing = false)
    (hc' : x'.committing = false) (hl' : l'.commits = false)
    (hout : x'.outstanding = opCount (update pcs t l'))
    (hop : ∀ op, l'.op = some op → op.Open x') (hopen : ∀ op : LogOp, op.Open x → op.Open x')
    (hended : ∀ op ∈ x'.ended, op.Open x' ∨ op.Committed x') (hnodup : x'.lh.Nodup)
    (hpinned : x'.toLogState.Pinned) : GroupInv x' (update pcs t l') := by
  have hnone : ∀ u, (update pcs t l' u).commits = false :=
    (forall_update_iff pcs fun _ l => l.commits = false).mpr
      ⟨hl', fun u _ => h.commits_of_not_committing hc u⟩
  have hnone' : ∀ {p : Prop} u, (update pcs t l' u).commits = true → p := by
    intro p u hu
    rw [hnone u] at hu
    exact absurd hu (by decide)
  refine ⟨fun u hu => h.idle_update ht u hu, hout, fun u hu => hnone' u hu,
    fun u v hu _ => hnone' u hu, fun hx => ?_, fun u op hu => ?_, fun op hmem => ?_, hnodup,
    fun _ => hpinned, fun u hu => hnone' u hu⟩
  · rw [hc'] at hx
    exact absurd hx (by decide)
  · by_cases hut : u = t
    · subst hut
      rw [update_self] at hu
      exact hop op hu
    · rw [update_of_ne hut] at hu
      exact hopen op (h.op u op hu)
  · rcases hended op hmem with ho | ho
    · exact Or.inl ⟨hc', ho⟩
    · exact Or.inr ho

/-- The committing thread goes on with its commit. -/
lemma act_of_commits (hl : (pcs t).commits = true)
    (hl' : l'.commits = true) (hout : x'.outstanding = x.outstanding)
    (hc : x'.committing = x.committing) (hcommits : x'.commits = x.commits)
    (hended : x'.ended = x.ended) (hnodup : x'.lh.Nodup)
    (hat : ∀ st, (pcs t).CommitAt st x.toLogState → l'.CommitAt st x'.toLogState) :
    GroupInv x' (update pcs t l') := by
  have hcom : x.committing = true := h.committing t hl
  have hop' : l'.op = none := by
    cases l' with
    | eUnlock | cTest | cLog | cHead | cInstall | cClear | cErase | cAcquire | cDone => rfl
    | _ => exact absurd hl' (by simp)
  have hnone : ∀ u, (update pcs t l' u).op = none :=
    (forall_update_iff pcs fun _ l => l.op = none).mpr
      ⟨hop', fun u _ => h.op_of_committing hcom u⟩
  have honly : ∀ u, (update pcs t l' u).commits = true → u = t := by
    intro u hu
    by_contra hut
    rw [update_of_ne hut] at hu
    exact hut (h.alone u t hu hl)
  refine ⟨fun u hu => h.idle_update ht u hu, ?_, fun _ _ => hc.trans hcom,
    fun u v hu hv => (honly u hu).trans (honly v hv).symm, fun _ => hout.trans (h.quiet hcom),
    fun u op hu => ?_, fun op hmem => ?_, hnodup, fun hx => ?_, fun u hu => ?_⟩
  · rw [hout, h.outstanding, opCount_update ht, hop', h.op_of_committing hcom t]
    ring
  · rw [hnone u] at hu
    exact absurd hu (by simp)
  · rw [hended] at hmem
    rcases h.ended op hmem with ⟨hx, -⟩ | ⟨st, hst, hw⟩
    · rw [hcom] at hx
      exact absurd hx (by decide)
    · exact Or.inr ⟨st, by rw [hcommits]; exact hst, hw⟩
  · rw [hc, hcom] at hx
    exact absurd hx (by decide)
  · obtain rfl := honly u hu
    obtain ⟨st, hlast, hp, hst⟩ := h.commit u hl
    rw [update_self]
    exact ⟨st, by rw [hcommits]; exact hlast, hp, hat st hst⟩

/-- An operation logs a block. -/
lemma logs {op : LogOp} {b : ℕ} (hop : (pcs t).op = some op) (hx : x' = x ∧ b ∈ x.lh ∨
      x' = { x with toLogState := { x.toLogState.bpin b with lh := x.lh ++ [b] } } ∧ b ∉ x.lh) :
    GroupInv x' (update pcs t
      (.lRelease { op with writes := op.writes ++ [(b, x.commits.length)] })) := by
  have hc := h.not_committing_of_op hop
  have hcount : opCount (update pcs t
      (.lRelease { op with writes := op.writes ++ [(b, x.commits.length)] })) = x.outstanding := by
    rw [opCount_update ht, hop, h.outstanding]
    simp
  have hmono : ∀ w ∈ x.lh, w ∈ x'.lh := by
    rcases hx with ⟨rfl, -⟩ | ⟨rfl, -⟩
    · exact fun w hw => hw
    · exact fun w hw => List.mem_append_left _ hw
  have hb : b ∈ x'.lh := by
    rcases hx with ⟨rfl, hb⟩ | ⟨rfl, -⟩
    · exact hb
    · exact List.mem_append_right _ List.mem_cons_self
  have hcommits : x'.commits = x.commits := by rcases hx with ⟨rfl, -⟩ | ⟨rfl, -⟩ <;> rfl
  have hopen : ∀ op : LogOp, op.Open x → op.Open x' := fun op ho =>
    ⟨by rw [hcommits]; exact ho.1, fun w hw => ⟨(ho.2 w hw).1, hmono _ (ho.2 w hw).2⟩⟩
  have hnew : LogOp.Open { op with writes := op.writes ++ [(b, x.commits.length)] } x' := by
    have ho := hopen op (h.op t op hop)
    refine ⟨ho.1, fun w hw => ?_⟩
    rcases List.mem_append.mp hw with hw | hw
    · exact ho.2 w hw
    · obtain rfl := List.mem_singleton.mp hw
      exact ⟨(h.op t op hop).1.symm, hb⟩
  refine h.act_of_not_committing ht hc ?_ rfl ?_ (fun op' ho => ?_) hopen (fun op' hmem => ?_) ?_ ?_
  · rcases hx with ⟨rfl, -⟩ | ⟨rfl, -⟩ <;> exact hc
  · rw [hcount]
    rcases hx with ⟨rfl, -⟩ | ⟨rfl, -⟩ <;> rfl
  · obtain rfl := Option.some.inj ho
    exact hnew
  · have hmem : op' ∈ x.ended := by rcases hx with ⟨rfl, -⟩ | ⟨rfl, -⟩ <;> exact hmem
    rcases h.ended op' hmem with ho | ⟨st, hst, hw⟩
    · exact Or.inl (hopen op' ho.2)
    · exact Or.inr ⟨st, by rw [hcommits]; exact hst, hw⟩
  · rcases hx with ⟨rfl, -⟩ | ⟨rfl, hnot⟩
    · exact h.nodup
    · exact List.Nodup.append h.nodup (List.nodup_singleton b) (by simpa using hnot)
  · rcases hx with ⟨rfl, -⟩ | ⟨rfl, hnot⟩
    · exact h.pinned hc
    · -- The new block was not pinned before.
      intro c
      have hp := h.pinned hc c
      by_cases hcb : c = b
      · subst hcb
        simpa [LogState.bpin, hnot] using hp
      · simpa [LogState.bpin, hcb] using hp

/-- The last operation to leave starts a commit. -/
lemma last {op : LogOp} (hop : (pcs t).op = some op) (hout : x.outstanding - 1 = 0) :
    GroupInv { x with
        outstanding := 0
        committing := true
        ended := x.ended ++ [op]
        commits := x.commits ++ [{ x.toLogState with outstanding := 0, committing := true }] }
      (update pcs t .eUnlock) := by
  have hc := h.not_committing_of_op hop
  have hcount : opCount (update pcs t .eUnlock) = 0 := by
    rw [opCount_update ht, hop, ← h.outstanding]
    simpa using hout
  have hnone : ∀ u, (update pcs t .eUnlock u).op = none := by
    intro u
    by_contra hu
    obtain ⟨o, ho⟩ := Option.ne_none_iff_exists'.mp hu
    have hlt : u < NPROC := by
      by_contra hlt
      rw [h.idle_update ht u (by omega)] at ho
      exact absurd ho (by simp)
    have hpos := opCount_pos hlt (by rw [ho]; rfl)
    rw [hcount] at hpos
    exact absurd hpos (by decide)
  have honly : ∀ u, (update pcs t .eUnlock u).commits = true → u = t := by
    intro u hu
    by_contra hut
    rw [update_of_ne hut, h.commits_of_not_committing hc u] at hu
    exact absurd hu (by decide)
  -- The blocks of the operations that were open are those of the new transaction.
  have hcommitted : ∀ op : LogOp, op.Open x → op.Committed { x with
        outstanding := 0
        committing := true
        ended := x.ended ++ [op]
        commits := x.commits ++ [{ x.toLogState with outstanding := 0, committing := true }] } := by
    rintro op ⟨he, hw⟩
    refine ⟨{ x.toLogState with outstanding := 0, committing := true }, ?_, hw⟩
    rw [he]
    exact List.getElem?_concat_length
  refine ⟨fun u hu => h.idle_update ht u hu, hcount.symm, fun _ _ => rfl,
    fun u v hu hv => (honly u hu).trans (honly v hv).symm, fun _ => rfl, fun u o hu => ?_,
    fun o hmem => Or.inr ?_, h.nodup, fun hx => absurd hx (by simp), fun u hu => ?_⟩
  · rw [hnone u] at hu
    exact absurd hu (by simp)
  · rcases List.mem_append.mp hmem with hmem | hmem
    · rcases h.ended o hmem with ho | ⟨st, hst, hw⟩
      · exact hcommitted o ho.2
      · refine ⟨st, ?_, hw⟩
        exact (List.getElem?_append_left (List.getElem?_eq_some_iff.mp hst).1).trans hst
    · obtain rfl := List.mem_singleton.mp hmem
      exact hcommitted o (h.op t o hop)
  · obtain rfl := honly u hu
    rw [update_self]
    exact ⟨_, List.getLast?_concat, h.pinned hc, rfl⟩

/-- The commit is over. -/
lemma done (hl : pcs t = .cDone) : GroupInv { x with committing := false, ncommit := x.ncommit + 1 }
      (update pcs t .cWake) := by
  have hl' : (pcs t).commits = true := by rw [hl]; rfl
  have hcom := h.committing t hl'
  obtain ⟨st, hlast, hp, hst⟩ := h.commit t hl'
  rw [hl] at hst
  have hst : x.toLogState = st.commit := hst
  have honly : ∀ u, (update pcs t .cWake u).commits = false := by
    refine (forall_update_iff pcs fun _ l => l.commits = false).mpr ⟨rfl, fun u hut => ?_⟩
    by_contra hu
    exact hut (h.alone u t (by simpa using hu) hl')
  have hnone : ∀ u, (update pcs t .cWake u).op = none :=
    (forall_update_iff pcs fun _ l => l.op = none).mpr ⟨rfl, fun u _ => h.op_of_committing hcom u⟩
  have honly' : ∀ {p : Prop} u, (update pcs t .cWake u).commits = true → p := by
    intro p u hu
    rw [honly u] at hu
    exact absurd hu (by decide)
  refine ⟨fun u hu => h.idle_update ht u hu, ?_, fun u hu => honly' u hu,
    fun u v hu _ => honly' u hu, fun hx => absurd hx (by simp), fun u o hu => ?_,
    fun o hmem => Or.inr ?_, h.nodup, fun _ b => ?_, fun u hu => honly' u hu⟩
  · rw [opCount_update ht, hl, ← h.outstanding]
    simp
  · rw [hnone u] at hu
    exact absurd hu (by simp)
  · rcases h.ended o hmem with ⟨hx, -⟩ | ho
    · rw [hcom] at hx
      exact absurd hx (by decide)
    · exact ho
  · change x.toLogState.pins b = if b ∈ x.toLogState.lh then 1 else 0
    rw [hst, LogState.commit_lh, LogState.commit_pins hp]
    simp

/-- Every action keeps the invariant. -/
lemma act (ha : LogAct (pcs t) x l' x') : GroupInv x' (update pcs t l') := by
  generalize hl : pcs t = l at ha
  have hat : l.commits = true → l'.commits = true →
      ∀ st, (pcs t).CommitAt st x.toLogState → l'.CommitAt st x'.toLogState :=
    fun hc hc' st hst => ha.commitAt hc hc' (hl ▸ hst)
  cases ha with
  | call x l' hcall =>
    refine h.move ht ?_ ?_ ?_ <;> rcases hcall with rfl | rfl <;> simp [hl]
  | wait | leave | syncWait | syncIdle | syncMore | syncEnd =>
    exact h.move ht (by simp [hl]) (by simp [hl]) (by simp [hl])
  | empty | start | logEnd | installEnd =>
    exact h.move ht (by simp [hl]) (by simp [hl]) (hat rfl rfl)
  | enter x hc hspace =>
    refine h.act_of_not_committing ht hc hc rfl ?_ (fun op hop => ?_) (fun op ho => ho)
      (fun op hmem => ?_) h.nodup (h.pinned hc)
    · rw [opCount_update ht, hl, ← h.outstanding]
      simp
    · obtain rfl := Option.some.inj hop
      exact ⟨rfl, fun w hw => absurd hw List.not_mem_nil⟩
    · exact (h.ended op hmem).imp And.right id
  | modify op x b data =>
    have hop : (pcs t).op = some op := by rw [hl]; rfl
    refine h.act_of_not_committing ht (h.not_committing_of_op hop) (h.not_committing_of_op hop) rfl
      ?_ (fun op' ho => ?_) (fun op ho => ho) (fun op hmem => ?_) h.nodup
      (h.pinned (h.not_committing_of_op hop))
    · rw [opCount_update ht, hl, ← h.outstanding]
      simp
    · obtain rfl := Option.some.inj ho
      exact h.op t _ hop
    · exact (h.ended op hmem).imp And.right id
  | absorb op b x hlen hb => exact h.logs ht (by rw [hl]; rfl) (Or.inl ⟨rfl, hb⟩)
  | add op b x hlen hb => exact h.logs ht (by rw [hl]; rfl) (Or.inr ⟨rfl, hb⟩)
  | last op x hout hc => exact h.last ht (by rw [hl]; rfl) hout
  | more op x hout hc =>
    have hop : (pcs t).op = some op := by rw [hl]; rfl
    refine h.act_of_not_committing ht hc hc rfl ?_ (fun op' ho => absurd ho (by simp))
      (fun op ho => ho) (fun op' hmem => ?_) h.nodup (h.pinned hc)
    · rw [opCount_update ht, hl, ← h.outstanding]
      simp
    · rcases List.mem_append.mp hmem with hmem | hmem
      · exact (h.ended op' hmem).imp And.right id
      · obtain rfl := List.mem_singleton.mp hmem
        exact Or.inl (h.op t _ hop)
  | log | head | install | erase =>
    exact h.act_of_commits ht (by rw [hl]; rfl) rfl rfl rfl rfl rfl h.nodup (hat rfl rfl)
  | clear x =>
    exact h.act_of_commits ht (by rw [hl]; rfl) rfl rfl rfl rfl rfl List.nodup_nil (hat rfl rfl)
  | done x => exact h.done ht hl

end

end GroupInv

/-! ## Runs -/

/-- The log after `initlog`, with no system call inside it. -/
structure LogFresh (s : Threads LogShared LogPc) : Prop where
  outstanding : s.sh.outstanding = 0
  committing : s.sh.committing = false
  lh : s.sh.lh = []
  pins : ∀ b, s.sh.pins b = 0
  commits : s.sh.commits = []
  ended : s.sh.ended = []
  pcs : ∀ t, s.pcs t = .idle
  panicked : s.panicked = none

lemma LogFresh.inv (h : LogFresh s) : GroupInv s.sh s.pcs where
  idle := fun t _ => h.pcs t
  outstanding := by simp [h.outstanding, opCount, h.pcs]
  committing := fun t ht => absurd ht (by simp [h.pcs])
  alone := fun t _ ht => absurd ht (by simp [h.pcs])
  quiet := fun hc => absurd hc (by simp [h.committing])
  op := fun t _ ht => absurd ht (by simp [h.pcs])
  ended := fun op hop => absurd hop (by simp [h.ended])
  nodup := by simp [h.lh]
  pinned := fun _ b => by simp [h.lh, h.pins]
  commit := fun t ht => absurd ht (by simp [h.pcs])

/-- An instruction other than an action stays within the operation or the commit. -/
lemma logCode_next (h : (logCode chan l).Next l') :
    l'.op = l.op ∧ l'.commits = l.commits ∧
      ∀ st s, l.CommitAt st s → l'.CommitAt st s := by
  cases l <;> simp only [logCode, Instr.Next] at h <;> subst h <;> simp

/-- A thread that goes on without an action takes its block along. -/
lemma logCode_next_pending (h : (logCode chan l).Next l') {op : LogOp}
    (hb : l'.pending = some (op, b)) : l.pending = some (op, b) := by
  cases l <;> simp only [logCode, Instr.Next] at h <;> subst h <;> simp_all

/-- The panics that a bracketed caller cannot reach. -/
def OutsideBrackets (msg : String) : Prop :=
  msg = "log.committing" ∨ msg = "log_write outside of trans"

/-- An action that panics does so for lack of log space. -/
lemma GroupInv.not_outsideBrackets {pcs : ℕ → LogPc} {ch : LogChoice}
    (h : GroupInv x pcs) (hf : logCode chan (pcs t) = .act f) (hp : f x ch = .panic msg) :
    ¬OutsideBrackets msg := by
  have hpanic := logPanic_of_panic hf hp
  generalize hl : pcs t = l at hpanic
  cases hpanic with
  | tooBig => simp [OutsideBrackets]
  | outside op b x hout =>
    have hop : (pcs t).op = some op := by rw [hl]; rfl
    have hpos := opCount_pos (h.lt_of_op hop) (by rw [hop]; rfl)
    rw [← h.outstanding] at hpos
    omega
  | committing op x hc =>
    rw [h.not_committing_of_op (t := t) (by rw [hl]; rfl)] at hc
    exact absurd hc (by decide)

/-- What holds in every state that the log's threads reach. -/
def GroupOk (s : Threads LogShared LogPc) : Prop :=
  GroupInv s.sh s.pcs ∧ ∀ msg, s.panicked = some msg → ¬OutsideBrackets msg

lemma LogFresh.ok (h : LogFresh s) : GroupOk s :=
  ⟨h.inv, fun msg hmsg => absurd hmsg (by simp [h.panicked])⟩

/-- The step lemma of group commit. -/
theorem GroupOk.step
    (h : GroupOk s) (hs : Threads.step (logCode chan) s a = some s') : GroupOk s' := by
  have hnone : s'.panicked = none → ∀ msg, s'.panicked = some msg → ¬OutsideBrackets msg := by
    intro hn msg hmsg
    rw [hn] at hmsg
    exact absurd hmsg (by simp)
  obtain ⟨hsh, hpcs, hp⟩ | ⟨t, ht, -, ⟨l', hnext, hsh, hpcs, hp⟩ | ⟨f, ch, l', -, hf, hfx, hpcs, hp⟩ |
    ⟨msg, hsh, hpcs, hp, hwhy⟩⟩ := Threads.step_cases hs
  · exact ⟨by rw [hsh, hpcs]; exact h.1, hnone hp⟩
  · obtain ⟨hop, hc, hat⟩ := logCode_next hnext
    refine ⟨?_, hnone hp⟩
    rw [hsh, hpcs]
    exact h.1.move ht hop hc fun st => hat st _
  · refine ⟨?_, hnone hp⟩
    rw [hpcs]
    exact h.1.act ht (logAct_of_next hf hfx)
  · refine ⟨by rw [hsh, hpcs]; exact h.1, fun msg' hmsg => ?_⟩
    obtain rfl : msg = msg' := Option.some.inj (hp.symm.trans hmsg)
    rcases hwhy with ⟨l, -, rfl⟩ | ⟨l, -, rfl⟩ | ⟨f, ch, -, hf, hfx⟩
    · simp [OutsideBrackets]
    · simp [OutsideBrackets]
    · exact h.1.not_outsideBrackets hf hfx

/-- No operation is admitted while a commit is running. -/
lemma GroupInv.not_admitted (h : GroupInv s.sh s.pcs) (hc : s.sh.committing = true)
    (hs : Threads.step (logCode chan) s a = some s') (u : ℕ) : (s'.pcs u).op = none := by
  have hnone := h.op_of_committing hc
  have hupdate : ∀ {t l'}, l'.op = none → (update s.pcs t l' u).op = none := fun hl' =>
    (forall_update_iff s.pcs fun _ l => l.op = none).mpr ⟨hl', fun v _ => hnone v⟩ u
  refine (Threads.step_cases hs).rule (J := fun _ pcs => (pcs u).op = none) (hnone u) ?_ ?_
  · intro t _ l' hnext
    exact hupdate ((logCode_next hnext).1.trans (hnone t))
  · intro t _ f ch l' _ hf hfx
    refine hupdate ?_
    have hop := hnone t
    have ha := logAct_of_next hf hfx
    generalize s.pcs t = l at ha hop
    generalize s.sh = x at ha hc
    generalize s'.sh = x' at ha
    cases ha with
    | call x l' hcall => rcases hcall with rfl | rfl <;> rfl
    | enter x hfalse =>
      rw [hfalse] at hc
      exact absurd hc (by decide)
    | modify | leave | absorb | add => exact absurd hop (by simp)
    | _ => rfl

/-- **Group commit is all or nothing.**  In every state reached by any processes that run
`begin_op`, `log_write`, `end_op` and `sys_sync` in any interleaving:

* a commit starts only with `log.outstanding = 0`;
* while `log.committing` is set no operation is inside its bracket, none is admitted, and the log
  goes through the steps of `commit()` on the transaction it started with;
* the blocks an operation logs are all logged under one and the same commit count; as long as the
  commit with that number has not started they are all listed, and once it has, the operation has
  ended and its blocks are all in that commit's transaction;
* the panics for callers outside of a bracket are not reached;
* the header lists no block twice, and outside of a commit exactly the listed blocks are pinned,
  each once. -/
theorem group_commit (chan : ℕ) (s₀ s : Threads LogShared LogPc) (as : List (ThreadStep LogChoice))
    (h₀ : LogFresh s₀) (hrun : run (Threads.step (logCode chan)) s₀ as = some s) :
    (∀ a s', Threads.step (logCode chan) s a = some s' → s.sh.committing = false →
      s'.sh.committing = true → s'.sh.outstanding = 0) ∧
    (s.sh.committing = true → s.sh.outstanding = 0 ∧ (∀ t, (s.pcs t).op = none) ∧
      ∀ a s', Threads.step (logCode chan) s a = some s' → ∀ t, (s'.pcs t).op = none) ∧
    (∀ t, (s.pcs t).commits = true → s.sh.committing = true ∧
      ∃ st, s.sh.commits.getLast? = some st ∧ (s.pcs t).CommitAt st s.sh.toLogState) ∧
    (∀ t op, (s.pcs t).op = some op → op.Open s.sh) ∧
    (∀ op ∈ s.sh.ended, op.Open s.sh ∨ op.Committed s.sh) ∧
    s.panicked ≠ some "log.committing" ∧ s.panicked ≠ some "log_write outside of trans" ∧
    s.sh.lh.Nodup ∧
    (s.sh.committing = false → ∀ b, s.sh.pins b = if b ∈ s.sh.lh then 1 else 0) := by
  have hok : GroupOk s :=
    run_invariant (fun _ _ _ hu hstep => hu.step hstep) h₀.ok hrun
  obtain ⟨hinv, hpanic⟩ := hok
  refine ⟨fun a s' hs _ hc => ?_, fun hc => ⟨hinv.quiet hc, hinv.op_of_committing hc, ?_⟩,
    fun t ht => ⟨hinv.committing t ht, ?_⟩, hinv.op, fun op hop => ?_, fun hp => ?_, fun hp => ?_,
    hinv.nodup, hinv.pinned⟩
  · exact (GroupOk.step ⟨hinv, hpanic⟩ hs).1.quiet hc
  · exact fun a s' hs => hinv.not_admitted hc hs
  · obtain ⟨st, hlast, -, hat⟩ := hinv.commit t ht
    exact ⟨st, hlast, hat⟩
  · exact (hinv.ended op hop).imp And.right id
  · exact hpanic _ hp (Or.inl rfl)
  · exact hpanic _ hp (Or.inr rfl)

/-- A fresh log with running processes, its header at block 2. -/
def freshLog : Threads LogShared LogPc where
  sh := { LogState.boot 2 (fun _ _ => 0) with commits := [], ended := [] }
  lock := none
  proc := fun _ => { state := .running }
  ctl := fun _ => .pc .idle
  panicked := none

/-- Process `t` calls `begin_op`. -/
def beginOpBy (t : ℕ) : List (ThreadStep LogChoice) :=
  .run t .beginOp :: List.replicate 3 (.run t .go)

/-- Process `t` logs block `b`. -/
def logWriteBy (t b : ℕ) : List (ThreadStep LogChoice) :=
  .run t (.write b fun _ => 7) :: List.replicate 3 (.run t .go)

/-- Processes 0 and 1 run an operation each, at the same time.  Process 1 returns from `end_op`, and
process 0 reaches the commit. -/
def twoOps : List (ThreadStep LogChoice) :=
  beginOpBy 0 ++ beginOpBy 1 ++ logWriteBy 0 50 ++ logWriteBy 1 51 ++
    .run 1 .endOp :: List.replicate 69 (.run 1 .go) ++ .run 0 .endOp :: List.replicate 3 (.run 0 .go)

lemma freshLog_fresh : LogFresh freshLog where
  outstanding := rfl
  committing := rfl
  lh := rfl
  pins := fun _ => rfl
  commits := rfl
  ended := rfl
  pcs := fun _ => rfl
  panicked := rfl

/-- Both operations of `twoOps` are in the transaction of the first commit. -/
theorem group_commit_twoOps : ∃ s,
    run (Threads.step (logCode 0x80010000)) freshLog twoOps = some s ∧
    s.sh.committing = true ∧ s.sh.outstanding = 0 ∧
    ∀ b ∈ [50, 51], LogOp.Committed { epoch := 0, writes := [(b, 0)] } s.sh := by
  have hrun : (run (Threads.step (logCode 0x80010000)) freshLog twoOps).map
      (fun s => (s.sh.committing, s.sh.commits.length, s.sh.ended)) =
      some (true, 1, [⟨0, [(51, 0)]⟩, ⟨0, [(50, 0)]⟩]) := by
    decide +kernel
  obtain ⟨s, hs, h⟩ := Option.map_eq_some_iff.mp hrun
  simp only [Prod.mk.injEq] at h
  obtain ⟨hc, hlen, hended⟩ := h
  have h := group_commit 0x80010000 freshLog s twoOps freshLog_fresh hs
  refine ⟨s, hs, hc, (h.2.1 hc).1, fun b hb => ?_⟩
  have hmem : ⟨0, [(b, 0)]⟩ ∈ s.sh.ended := by
    rw [hended]
    simpa [or_comm] using hb
  refine (h.2.2.2.2.1 _ hmem).resolve_left fun hopen => ?_
  -- an open operation is one of the next commit
  have hepoch : 0 = s.sh.commits.length := hopen.1
  omega

end Xv6
