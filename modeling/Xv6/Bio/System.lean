import Xv6.Bio.Basic
import Xv6.Lib.Run

/-!
# The buffer cache: processes and the log

Processes read, modify and release buffers, and one of them at a time runs the log's `commit()`.  A
step is what a process does between two points where others may run: a critical section of
`bcache.lock` or of `log.lock`, the taking of a buffer's sleep-lock once it is free, or an access to
the data of a buffer whose sleep-lock the process holds.

Three fields are history: what has been stored last in each block (`mem`), the buffers that have
been modified and neither written nor logged since (`touched`), and the blocks the log has pinned
(`logPins`).
-/

namespace Xv6

open Function Option

/-- Where a process is inside `bio.c`. -/
inductive Call
  | none
  | locking (dev b i : ℕ)  -- `bread`, with `bget` waiting for the sleep-lock of buffer `i`
  | reading (dev b i : ℕ)  -- `bread`, at the test of `b->valid`
  | dropping (i : ℕ)  -- `brelse`, after `releasesleep`
  deriving DecidableEq, Repr

/-- Where a process is in `commit()`.  The positions carry the loop's `tail` and the buffers that
have been read. -/
inductive CommitPc
  | user  -- not in `commit()`
  | cTest
  | wTo (tail : ℕ)  -- write_log
  | wFrom (tail tbuf : ℕ)
  | wCopy (tail tbuf fbuf : ℕ)
  | wWrite (tail tbuf fbuf : ℕ)
  | wDropFrom (tail tbuf fbuf : ℕ)
  | wDropTo (tail tbuf : ℕ)
  | hGet (last : Bool)  -- write_head, the first or the last of a commit
  | hFill (last : Bool) (b : ℕ)
  | hWrite (last : Bool) (b : ℕ)
  | hDrop (last : Bool) (b : ℕ)
  | iLog (tail : ℕ)  -- install_trans
  | iHome (tail lbuf : ℕ)
  | iCopy (tail lbuf dbuf : ℕ)
  | iWrite (tail lbuf dbuf : ℕ)
  | iUnpin (tail lbuf dbuf : ℕ)
  | iDropLog (tail lbuf dbuf : ℕ)
  | iDropHome (tail dbuf : ℕ)
  | cClear
  | cEnd
  deriving DecidableEq, Repr

/-- `bread` has returned buffer `i`. -/
def CommitPc.got (i : ℕ) : CommitPc → CommitPc
  | .wTo k => .wFrom k i
  | .wFrom k tbuf => .wCopy k tbuf i
  | .hGet last => .hFill last i
  | .iLog k => .iHome k i
  | .iHome k lbuf => .iCopy k lbuf i
  | t => t

/-- `brelse` has returned. -/
def CommitPc.dropped : CommitPc → CommitPc
  | .wDropFrom k tbuf _ => .wDropTo k tbuf
  | .wDropTo k _ => .wTo (k + 1)
  | .hDrop last _ => if last then .cEnd else .iLog 0
  | .iDropLog k _ dbuf => .iDropHome k dbuf
  | .iDropHome k _ => .iLog (k + 1)
  | t => t

/-- A process. -/
structure Client where
  call : Call
  held : List ℕ  -- the buffers it has read and not released
  pins : List ℕ  -- the buffers it has pinned itself
  task : CommitPc
  inOp : Bool  -- between `begin_op` and `end_op`
  logged : List ℕ  -- the blocks it has logged since `begin_op`

/-- The buffer cache, the disks, `struct log` and the processes. -/
structure BufSys where
  bc : Bcache
  disk : ℕ → ℕ → Block  -- by device and block number
  dev : ℕ  -- `log.dev`
  start : ℕ  -- `log.start`
  lh : List ℕ  -- `log.lh.block[0..n)`
  outstanding : ℤ
  committing : Bool
  client : ℕ → Client
  panicked : Option String
  mem : ℕ → ℕ → Block
  touched : ℕ → Bool
  logPins : List ℕ

/-- What happens next. -/
inductive BufStep
  | bread (p dev b : ℕ)  -- process `p` calls `bread`
  | go (p : ℕ)  -- it goes on inside `bio.c` or `commit()`
  | modify (p i : ℕ) (data : Block)  -- it stores into the data of buffer `i`
  | bwrite (p i : ℕ)
  | logWrite (p i : ℕ)
  | brelse (p i : ℕ)
  | bpin (p i : ℕ)
  | bunpin (p i : ℕ)
  | beginOp (p : ℕ)
  | endOp (p : ℕ)

/-- The process of a step. -/
def BufStep.proc : BufStep → ℕ
  | .bread p _ _ | .go p | .modify p _ _ | .bwrite p _ | .logWrite p _ | .brelse p _ | .bpin p _
  | .bunpin p _ | .beginOp p | .endOp p => p

namespace BufSys

def setBuf (s : BufSys) (i : ℕ) (b : Buf) : BufSys := { s with bc := update s.bc i b }

def setClient (s : BufSys) (p : ℕ) (c : Client) : BufSys :=
  { s with client := update s.client p c }

def setTask (s : BufSys) (p : ℕ) (t : CommitPc) : BufSys := s.setClient p { s.client p with task := t }

def panic (s : BufSys) (msg : String) : BufSys := { s with panicked := some msg }

/-- `bread`, up to the end of `bget`'s critical section. -/
def bread (s : BufSys) (p dev b : ℕ) : BufSys :=
  match s.bc.bget dev b with
  | some (i, bc) => { s with bc := bc }.setClient p { s.client p with call := .locking dev b i }
  | none => s.panic "bget: no buffers"

/-- The data of buffer `i` becomes `data`. -/
def store (s : BufSys) (i : ℕ) (data : Block) : BufSys :=
  { s.setBuf i { s.bc i with data := data } with
    mem := update s.mem (s.bc i).dev
      (update (s.mem (s.bc i).dev) (s.bc i).blockno data)
    touched := update s.touched i true }

/-- `bwrite`. -/
def bwrite (s : BufSys) (p i : ℕ) (t : CommitPc) : BufSys :=
  if (s.bc i).lock = some p then
    { s with
      disk := update s.disk (s.bc i).dev
        (update (s.disk (s.bc i).dev) (s.bc i).blockno (s.bc i).data)
      touched := update s.touched i false }.setTask p t
  else s.panic "bwrite"

/-- `brelse`, up to the end of `releasesleep`. -/
def brelse (s : BufSys) (p i : ℕ) : BufSys :=
  if (s.bc i).lock = some p then
    (s.setBuf i { s.bc i with lock := none }).setClient p
      { s.client p with held := (s.client p).held.erase i, call := .dropping i }
  else s.panic "brelse"

/-- `log_write`. -/
def logWrite (s : BufSys) (p i : ℕ) : BufSys :=
  if s.lh.length ≥ LOGBLOCKS then s.panic "too big a transaction"
  else if s.outstanding < 1 then s.panic "log_write outside of trans"
  else
    let b := (s.bc i).blockno
    let s' := { s with touched := update s.touched i false }.setClient p
      { s.client p with logged := b :: (s.client p).logged }
    if b ∈ s.lh then s'  -- log absorption
    else { s' with bc := s'.bc.bpin i, lh := s'.lh ++ [b], logPins := s'.logPins ++ [b] }

/-- The test `log.lh.n + (log.outstanding + 1) * MAXOPBLOCKS > LOGBLOCKS`. -/
def NoSpace (s : BufSys) : Prop :=
  (s.lh.length : ℤ) + (s.outstanding + 1) * MAXOPBLOCKS > LOGBLOCKS

instance (s : BufSys) : Decidable s.NoSpace := inferInstanceAs (Decidable (_ > _))

/-- `begin_op`, once it does not have to wait. -/
def beginOp (s : BufSys) (p : ℕ) : Option BufSys :=
  if s.committing = true ∨ s.NoSpace then none
  else some ({ s with outstanding := s.outstanding + 1 }.setClient p
    { s.client p with inOp := true, logged := [] })

/-- `end_op`, up to the call of `commit()`. -/
def endOp (s : BufSys) (p : ℕ) : BufSys :=
  let s' := { s with outstanding := s.outstanding - 1 }
  if s.committing = true then s'.panic "log.committing"
  else if s'.outstanding = 0 then
    { s' with committing := true }.setClient p { s.client p with inOp := false, task := .cTest }
  else s'.setClient p { s.client p with inOp := false }

/-- The next step of `commit()`. -/
def commit (s : BufSys) (p : ℕ) : CommitPc → Option BufSys
  | .user => none
  | .cTest => some (if s.lh.length > 0 then s.setTask p (.wTo 0) else s.setTask p .cEnd)
  -- write_log
  | .wTo k => some (if k < s.lh.length then s.bread p s.dev (s.start + k + 1)
      else s.setTask p (.hGet false))
  | .wFrom k _ => some (s.bread p s.dev (s.lh.getD k 0))
  | .wCopy k tbuf fbuf => some ((s.store tbuf (s.bc fbuf).data).setTask p (.wWrite k tbuf fbuf))
  | .wWrite k tbuf fbuf => some (s.bwrite p tbuf (.wDropFrom k tbuf fbuf))
  | .wDropFrom _ _ fbuf => some (s.brelse p fbuf)
  | .wDropTo _ tbuf => some (s.brelse p tbuf)
  -- write_head
  | .hGet _ => some (s.bread p s.dev s.start)
  | .hFill last b => some ((s.store b (putHead (s.bc b).data s.lh)).setTask p (.hWrite last b))
  | .hWrite last b => some (s.bwrite p b (.hDrop last b))
  | .hDrop _ b => some (s.brelse p b)
  -- install_trans
  | .iLog k => some (if k < s.lh.length then s.bread p s.dev (s.start + k + 1)
      else s.setTask p .cClear)
  | .iHome k _ => some (s.bread p s.dev (s.lh.getD k 0))
  | .iCopy k lbuf dbuf => some ((s.store dbuf (s.bc lbuf).data).setTask p (.iWrite k lbuf dbuf))
  | .iWrite k lbuf dbuf => some (s.bwrite p dbuf (.iUnpin k lbuf dbuf))
  | .iUnpin k lbuf dbuf =>
    some ({ s with bc := s.bc.bunpin dbuf, logPins := s.logPins.erase (s.bc dbuf).blockno }.setTask p
      (.iDropLog k lbuf dbuf))
  | .iDropLog _ lbuf _ => some (s.brelse p lbuf)
  | .iDropHome _ dbuf => some (s.brelse p dbuf)
  | .cClear => some ({ s with lh := [] }.setTask p (.hGet true))
  | .cEnd => some ({ s with committing := false }.setTask p .user)

/-- A process goes on. -/
def go (s : BufSys) (p : ℕ) : Option BufSys :=
  let c := s.client p
  match c.call with
  | .locking d b i =>
    if (s.bc i).lock = none then
      some ((s.setBuf i { s.bc i with lock := some p }).setClient p { c with call := .reading d b i })
    else none
  | .reading _ _ i =>
    let s' := if (s.bc i).valid then s else
      s.setBuf i { s.bc i with valid := true, data := s.disk (s.bc i).dev (s.bc i).blockno }
    some (s'.setClient p { c with call := .none, held := i :: c.held, task := c.task.got i })
  | .dropping i =>
    some ({ s with bc := s.bc.drop i }.setClient p
      { c with call := .none, task := c.task.dropped })
  | .none => s.commit p c.task

/-- Process `p` is free to make a call. -/
def Free (s : BufSys) (p : ℕ) : Prop := (s.client p).call = .none ∧ (s.client p).task = .user

instance (s : BufSys) (p : ℕ) : Decidable (s.Free p) := inferInstanceAs (Decidable (_ ∧ _))

/-- One step of the system.  Processes store into buffers, log and pin them while they hold them,
unpin what they have pinned, and bracket their operations. -/
def step (s : BufSys) (a : BufStep) : Option BufSys :=
  if s.panicked = none ∧ a.proc < NPROC then
    match a with
    | .go p => s.go p
    | .bread p dev b => if s.Free p then some (s.bread p dev b) else none
    | .modify p i data =>
      if s.Free p ∧ i ∈ (s.client p).held then some (s.store i data) else none
    | .bwrite p i => if s.Free p then some (s.bwrite p i .user) else none
    | .logWrite p i => if s.Free p ∧ i ∈ (s.client p).held then some (s.logWrite p i) else none
    | .brelse p i => if s.Free p then some (s.brelse p i) else none
    | .bpin p i =>
      if s.Free p ∧ i ∈ (s.client p).held then
        some ({ s with bc := s.bc.bpin i }.setClient p
          { s.client p with pins := i :: (s.client p).pins })
      else none
    | .bunpin p i =>
      if s.Free p ∧ i ∈ (s.client p).pins then
        some ({ s with bc := s.bc.bunpin i }.setClient p
          { s.client p with pins := (s.client p).pins.erase i })
      else none
    | .beginOp p => if s.Free p ∧ (s.client p).inOp = false then s.beginOp p else none
    | .endOp p => if s.Free p ∧ (s.client p).inOp = true then some (s.endOp p) else none
  else none

/-! ## What a step can do -/

/-- What `commit()` asks of `bread` at a position. -/
def request (s : BufSys) : CommitPc → Option (ℕ × ℕ)
  | .wTo k | .iLog k => if k < s.lh.length then some (s.dev, s.start + k + 1) else none
  | .wFrom k _ | .iHome k _ => some (s.dev, s.lh.getD k 0)
  | .hGet _ => some (s.dev, s.start)
  | _ => none

/-- The buffer, the data and the next position where `commit()` stores into a buffer. -/
def stores (s : BufSys) : CommitPc → Option (ℕ × Block × CommitPc)
  | .wCopy k tbuf fbuf => some (tbuf, (s.bc fbuf).data, .wWrite k tbuf fbuf)
  | .hFill last b => some (b, putHead (s.bc b).data s.lh, .hWrite last b)
  | .iCopy k lbuf dbuf => some (dbuf, (s.bc lbuf).data, .iWrite k lbuf dbuf)
  | _ => none

/-- The tests of `commit()`. -/
def moves (s : BufSys) : CommitPc → Option CommitPc
  | .cTest => some (if s.lh.length > 0 then .wTo 0 else .cEnd)
  | .wTo k => if k < s.lh.length then none else some (.hGet false)
  | .iLog k => if k < s.lh.length then none else some .cClear
  | _ => none

end BufSys

namespace CommitPc

/-- The buffer and the next position where `commit()` calls `bwrite`. -/
@[simp] def writes : CommitPc → Option (ℕ × CommitPc)
  | .wWrite k tbuf fbuf => some (tbuf, .wDropFrom k tbuf fbuf)
  | .hWrite last b => some (b, .hDrop last b)
  | .iWrite k lbuf dbuf => some (dbuf, .iUnpin k lbuf dbuf)
  | _ => none

/-- The buffer where `commit()` calls `brelse`. -/
@[simp] def releases : CommitPc → Option ℕ
  | .wDropFrom _ _ b | .wDropTo _ b | .hDrop _ b | .iDropLog _ b _ | .iDropHome _ b => some b
  | _ => none

end CommitPc

namespace BufSys

/-- What process `p` can do in one step. -/
inductive Acts (s : BufSys) (p : ℕ) : BufStep → BufSys → Prop
  | bread (a d b) (hcall : (s.client p).call = .none)
    (h : a = .bread p d b ∧ (s.client p).task = .user ∨
      a = .go p ∧ s.request (s.client p).task = some (d, b)) : Acts s p a (s.bread p d b)
  | lock (d b i) (hcall : (s.client p).call = .locking d b i) (hfree : (s.bc i).lock = none) :
    Acts s p (.go p) ((s.setBuf i { s.bc i with lock := some p }).setClient p
      { s.client p with call := .reading d b i })
  | fill (d b i) (hcall : (s.client p).call = .reading d b i) (hvalid : (s.bc i).valid = false) :
    Acts s p (.go p) ((s.setBuf i { s.bc i with
        valid := true, data := s.disk (s.bc i).dev (s.bc i).blockno }).setClient p
      { s.client p with
        call := .none, held := i :: (s.client p).held, task := (s.client p).task.got i })
  | found (d b i) (hcall : (s.client p).call = .reading d b i) (hvalid : (s.bc i).valid = true) :
    Acts s p (.go p) (s.setClient p { s.client p with
      call := .none, held := i :: (s.client p).held, task := (s.client p).task.got i })
  | store (a i data t) (hcall : (s.client p).call = .none)
    (h : a = .modify p i data ∧ (s.client p).task = .user ∧ t = .user ∧ i ∈ (s.client p).held ∨
      a = .go p ∧ s.stores (s.client p).task = some (i, data, t)) :
    Acts s p a ((s.store i data).setTask p t)
  | bwrite (a i t) (hcall : (s.client p).call = .none)
    (h : a = .bwrite p i ∧ (s.client p).task = .user ∧ t = .user ∨
      a = .go p ∧ (s.client p).task.writes = some (i, t)) : Acts s p a (s.bwrite p i t)
  | brelse (a i) (hcall : (s.client p).call = .none)
    (h : a = .brelse p i ∧ (s.client p).task = .user ∨
      a = .go p ∧ (s.client p).task.releases = some i) : Acts s p a (s.brelse p i)
  | drop (i) (hcall : (s.client p).call = .dropping i) :
    Acts s p (.go p) ({ s with bc := s.bc.drop i }.setClient p
      { s.client p with call := .none, task := (s.client p).task.dropped })
  | logWrite (i) (hfree : s.Free p) (hi : i ∈ (s.client p).held) :
    Acts s p (.logWrite p i) (s.logWrite p i)
  | bpin (i) (hfree : s.Free p) (hi : i ∈ (s.client p).held) :
    Acts s p (.bpin p i) ({ s with bc := s.bc.bpin i }.setClient p
      { s.client p with pins := i :: (s.client p).pins })
  | bunpin (i) (hfree : s.Free p) (hi : i ∈ (s.client p).pins) :
    Acts s p (.bunpin p i) ({ s with bc := s.bc.bunpin i }.setClient p
      { s.client p with pins := (s.client p).pins.erase i })
  | beginOp (hfree : s.Free p) (hop : (s.client p).inOp = false) (hc : s.committing = false)
    (hspace : ¬s.NoSpace) :
    Acts s p (.beginOp p) ({ s with outstanding := s.outstanding + 1 }.setClient p
      { s.client p with inOp := true, logged := [] })
  | endOp (hfree : s.Free p) (hop : (s.client p).inOp = true) : Acts s p (.endOp p) (s.endOp p)
  | move (t) (hcall : (s.client p).call = .none) (h : s.moves (s.client p).task = some t) :
    Acts s p (.go p) (s.setTask p t)
  | unpin (k lbuf dbuf) (hcall : (s.client p).call = .none)
    (h : (s.client p).task = .iUnpin k lbuf dbuf) :
    Acts s p (.go p) ({ s with
        bc := s.bc.bunpin dbuf, logPins := s.logPins.erase (s.bc dbuf).blockno }.setTask p
      (.iDropLog k lbuf dbuf))
  | clear (hcall : (s.client p).call = .none) (h : (s.client p).task = .cClear) :
    Acts s p (.go p) ({ s with lh := [] }.setTask p (.hGet true))
  | finish (hcall : (s.client p).call = .none) (h : (s.client p).task = .cEnd) :
    Acts s p (.go p) ({ s with committing := false }.setTask p .user)

lemma setTask_task (s : BufSys) (p : ℕ) : s.setTask p (s.client p).task = s :=
  congrArg (fun c => { s with client := c }) (update_eq_self p s.client)

variable {s s' : BufSys} {p : ℕ}

lemma acts_of_commit (hcall : (s.client p).call = .none)
    (h : s.commit p (s.client p).task = some s') : s.Acts p (.go p) s' := by
  cases ht : (s.client p).task with
  | user => simp [commit, ht] at h
  | cTest =>
    simp only [commit, ht, some.injEq] at h
    have hm : s.moves (s.client p).task = some (if s.lh.length > 0 then .wTo 0 else .cEnd) := by
      rw [ht]
      rfl
    convert Acts.move _ hcall hm
    rw [← h]
    split <;> rfl
  | wTo k | iLog k =>
    simp only [commit, ht, some.injEq] at h
    split_ifs at h with hk
    · rw [← h]
      exact .bread _ _ _ hcall (Or.inr ⟨rfl, by simp [request, ht, hk]⟩)
    · rw [← h]
      exact .move _ hcall (by simp [moves, ht, hk])
  | wFrom | hGet | iHome =>
    simp only [commit, ht, some.injEq] at h
    rw [← h]
    exact .bread _ _ _ hcall (Or.inr ⟨rfl, by simp [request, ht]⟩)
  | wCopy | hFill | iCopy =>
    simp only [commit, ht, some.injEq] at h
    rw [← h]
    exact .store _ _ _ _ hcall (Or.inr ⟨rfl, by simp [stores, ht]⟩)
  | wWrite | hWrite | iWrite =>
    simp only [commit, ht, some.injEq] at h
    rw [← h]
    exact .bwrite _ _ _ hcall (Or.inr ⟨rfl, by simp [ht]⟩)
  | wDropFrom | wDropTo | hDrop | iDropLog | iDropHome =>
    simp only [commit, ht, some.injEq] at h
    rw [← h]
    exact .brelse _ _ hcall (Or.inr ⟨rfl, by simp [ht]⟩)
  | iUnpin k lbuf dbuf =>
    simp only [commit, ht, some.injEq] at h
    rw [← h]
    exact .unpin _ _ _ hcall ht
  | cClear =>
    simp only [commit, ht, some.injEq] at h
    rw [← h]
    exact .clear hcall ht
  | cEnd =>
    simp only [commit, ht, some.injEq] at h
    rw [← h]
    exact .finish hcall ht

lemma acts_of_go (h : s.go p = some s') : s.Acts p (.go p) s' := by
  rw [go] at h
  dsimp only at h
  split at h
  case h_1 d b i hcall =>
    split_ifs at h with hfree
    obtain rfl := some.inj h
    exact .lock d b i hcall hfree
  case h_2 d b i hcall =>
    obtain rfl := some.inj h
    cases hv : (s.bc i).valid with
    | false =>
      simp only [Bool.false_eq_true, if_false]
      exact .fill d b i hcall hv
    | true =>
      simp only [if_true]
      exact .found d b i hcall hv
  case h_3 i hcall =>
    obtain rfl := some.inj h
    exact .drop i hcall
  case h_4 hcall => exact acts_of_commit hcall h

/-- Every step is one of these. -/
theorem acts_of_step {a : BufStep} (h : s.step a = some s') :
    s.panicked = none ∧ a.proc < NPROC ∧ s.Acts a.proc a s' := by
  unfold step at h
  split_ifs at h with hen
  refine ⟨hen.1, hen.2, ?_⟩
  cases a with
  | go p => exact acts_of_go h
  | bread p d b =>
    dsimp only at h
    split_ifs at h with hfree
    obtain rfl := some.inj h
    exact .bread _ _ _ hfree.1 (Or.inl ⟨rfl, hfree.2⟩)
  | modify p i data =>
    dsimp only at h
    split_ifs at h with hfree
    obtain rfl := some.inj h
    have hstore := Acts.store (s := s) (p := p) (.modify p i data) i data .user hfree.1.1
      (Or.inl ⟨rfl, hfree.1.2, rfl, hfree.2⟩)
    have htask : (s.store i data).setTask p .user = s.store i data := by
      conv_rhs => rw [← (s.store i data).setTask_task p]
      exact congrArg _ hfree.1.2.symm
    rwa [htask] at hstore
  | bwrite p i =>
    dsimp only at h
    split_ifs at h with hfree
    obtain rfl := some.inj h
    exact .bwrite _ _ _ hfree.1 (Or.inl ⟨rfl, hfree.2, rfl⟩)
  | logWrite p i =>
    dsimp only at h
    split_ifs at h with hfree
    obtain rfl := some.inj h
    exact .logWrite i hfree.1 hfree.2
  | brelse p i =>
    dsimp only at h
    split_ifs at h with hfree
    obtain rfl := some.inj h
    exact .brelse _ _ hfree.1 (Or.inl ⟨rfl, hfree.2⟩)
  | bpin p i =>
    dsimp only at h
    split_ifs at h with hfree
    obtain rfl := some.inj h
    exact .bpin i hfree.1 hfree.2
  | bunpin p i =>
    dsimp only at h
    split_ifs at h with hfree
    obtain rfl := some.inj h
    exact .bunpin i hfree.1 hfree.2
  | beginOp p =>
    dsimp only at h
    split_ifs at h with hfree
    rw [beginOp] at h
    split_ifs at h with hwait
    obtain rfl := some.inj h
    rw [not_or] at hwait
    exact .beginOp hfree.1 hfree.2 (by simpa using hwait.1) hwait.2
  | endOp p =>
    dsimp only at h
    split_ifs at h with hfree
    obtain rfl := some.inj h
    exact .endOp hfree.1 hfree.2

end BufSys

end Xv6
