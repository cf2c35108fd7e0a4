import Xv6.Pipe.Wakeup
import Xv6.Lib.Fifo

/-!
# A pipe is a lossless FIFO

The bytes delivered to readers are, in order, the first ones of those that writers have stored, and
the rest is in the buffer, however often the 32-bit counters wrap (`PipeInv.fifo`).  To say what a
single call does, the run is recorded (`PipeHist`): who stored and who took each byte, and for the
last call of each thread which offsets of the user's buffer it has copied from or to.
-/

namespace Xv6

open Pipe Function List

/-! ## The record of a run -/

/-- A call of `piperead` or `pipewrite`. -/
structure PipeCall where
  writes : Bool
  size : ℤ  -- `n`
  copied : List (ℕ × Byte)  -- the bytes copied, with their offsets in the user's buffer
  stored : ℕ  -- number of bytes that had been stored when the call began
  delivered : ℕ

/-- Who has stored and taken each byte, and the last call of each thread. -/
structure PipeHist where
  stored : List (ℕ × Byte)
  delivered : List (ℕ × Byte)
  call : ℕ → Option PipeCall

namespace PipeHist

/-- Nothing has happened. -/
def init : PipeHist := ⟨[], [], fun _ => none⟩

def setCall (h : PipeHist) (t : ℕ) (c : Option PipeCall) : PipeHist :=
  { h with call := update h.call t c }

/-- Thread `t` makes a call. -/
def start (h : PipeHist) (t : ℕ) (writes : Bool) (n : ℤ) : PipeHist :=
  h.setCall t (some ⟨writes, n, [], h.stored.length, h.delivered.length⟩)

/-- Thread `t` copies the byte at offset `i` of its buffer. -/
def copy (h : PipeHist) (t i : ℕ) (b : Byte) : PipeHist :=
  h.setCall t ((h.call t).map fun c => { c with copied := c.copied ++ [(i, b)] })

/-- What thread `t` does at position `l`. -/
def record (h : PipeHist) (x : Pipe) (t : ℕ) (ch : PipeChoice) : PipePc → PipeHist
  | .idle _ =>
    match ch with
    | .read n => h.start t false n
    | .write n => h.start t true n
    | _ => h.setCall t none
  | .wFull i _ _ =>
    match ch with
    | .copied b => if x.Full then h else { h.copy t i b with stored := h.stored ++ [(t, b)] }
    | _ => h
  | .rCopy i n =>
    match ch with
    | .copied _ =>
      if (i : ℤ) < n ∧ ¬x.Empty then
        { h.copy t i x.front with delivered := h.delivered ++ [(t, x.front)] }
      else h
    | _ => h
  | _ => h

/-- The record after a step from `s`. -/
def next (h : PipeHist) (s : Threads Pipe PipePc) : ThreadStep PipeChoice → PipeHist
  | .run t ch =>
    match s.ctl t with
    | .pc l => h.record s.sh t ch l
    | .scan .. => h
  | _ => h

end PipeHist

/-- One step of the threads on the pipe at `pi`, with its record. -/
def pipeStep (pi : ℕ) (s : Threads Pipe PipePc × PipeHist) (a : ThreadStep PipeChoice) :
    Option (Threads Pipe PipePc × PipeHist) :=
  (Threads.step (pipeCode pi) s.1 a).map fun s' => (s', s.2.next s.1 a)

variable {pi : ℕ} {l : PipePc} {f : Pipe → PipeChoice → Outcome Pipe PipePc}

/-- Every run can be recorded. -/
lemma exists_run_pipeStep {as : List (ThreadStep PipeChoice)} {s s' : Threads Pipe PipePc}
    (h : run (Threads.step (pipeCode pi)) s as = some s') (r : PipeHist) :
    ∃ r', run (pipeStep pi) (s, r) as = some (s', r') := by
  induction as generalizing s r with
  | nil =>
    obtain rfl : s = s' := Option.some.inj h
    exact ⟨r, rfl⟩
  | cons a as ih =>
    obtain ⟨t, ht, hrest⟩ := run_cons_eq_some.mp h
    obtain ⟨r', hr'⟩ := ih hrest (r.next s a)
    exact ⟨r', run_cons_eq_some.mpr ⟨(t, r.next s a), by simp [pipeStep, ht], hr'⟩⟩

/-! ## The invariant -/

/-- What the call `c` has copied when its thread is at a position. -/
def PipePc.Copied (c : PipeCall) (x : Pipe) : PipePc → Prop
  | .wAcquire i n | .wTest i n _ | .wKilled i n _ | .wFull i n _ | .wWake i n | .wPrepare i n
  | .wUnlock i n | .wSleep i n => c.writes = true ∧ c.size = n ∧ c.copied.length = i
  | .wFail _ => c.writes = true
  | .wDone ret | .wRelease ret => c.writes = true ∧ (0 ≤ ret → (c.copied.length : ℤ) = ret)
  | .rAcquire n | .rTest n | .rKilled n | .rPrepare n | .rUnlock n | .rSleep n =>
    c.writes = false ∧ c.size = n ∧ c.copied = []
  | .rFail => c.writes = false ∧ c.copied = []
  | .rCopy i n => c.writes = false ∧ c.size = n ∧ c.copied.length = i ∧
      (i = 0 → x.Empty → x.writeopen = false)
  | .rWake ret | .rRelease ret => c.writes = false ∧ (0 ≤ ret → (c.copied.length : ℤ) = ret) ∧
      (ret < 0 → c.copied = []) ∧ (ret = 0 → 0 < c.size → x.Empty ∧ x.writeopen = false)
  | .idle ret => (0 ≤ ret → (c.copied.length : ℤ) = ret) ∧
      (c.writes = false → ret < 0 → c.copied = [])
  | _ => False

/-- Positions outside of `piperead` and `pipewrite`. -/
def PipePc.outside : PipePc → Bool
  | .idle _ | .cAcquire _ | .cSet _ | .cWake _ | .cTest | .cRelease _ | .cFree => true
  | _ => false

/-- The bytes that thread `t` has moved since number `n`. -/
def movedBy (t n : ℕ) (l : List (ℕ × Byte)) : List Byte :=
  ((l.drop n).filter (·.1 = t)).map Prod.snd

/-- The record of the call `c` of thread `t`. -/
structure CallOk (h : PipeHist) (t : ℕ) (c : PipeCall) : Prop where
  offsets : c.copied.map Prod.fst = List.range c.copied.length
  stored_le : c.stored ≤ h.stored.length
  delivered_le : c.delivered ≤ h.delivered.length
  stored : movedBy t c.stored h.stored = if c.writes then c.copied.map Prod.snd else []
  delivered : movedBy t c.delivered h.delivered =
    if c.writes then [] else c.copied.map Prod.snd

structure PipeInv (s : Threads Pipe PipePc) (h : PipeHist) : Prop where
  lock : s.Locked PipePc.holds
  fifo : RingFifo PIPESIZE s.sh.data s.sh.nread s.sh.nwrite s.sh.stored s.sh.delivered
  stored : h.stored.map Prod.snd = s.sh.stored
  delivered : h.delivered.map Prod.snd = s.sh.delivered
  noCall : ∀ t, h.call t = none → (s.pcs t).outside = true
  call : ∀ t c, h.call t = some c → CallOk h t c ∧ (s.pcs t).Copied c s.sh

section movedBy

variable {t u n : ℕ} {l : List (ℕ × Byte)} {b : Byte}

lemma movedBy_append (h : n ≤ l.length) :
    movedBy t n (l ++ [(u, b)]) = movedBy t n l ++ if u = t then [b] else [] := by
  unfold movedBy
  rw [drop_append_of_le_length h, filter_append, map_append]
  by_cases hu : u = t <;> simp [hu]

lemma movedBy_length : movedBy t l.length l = [] := by simp [movedBy]

end movedBy

namespace CallOk

variable {h h' : PipeHist} {t u : ℕ} {c : PipeCall} {b : Byte}

/-- The call that has just been made. -/
lemma start (h : PipeHist) (t : ℕ) (w : Bool) (n : ℤ) :
    CallOk h t ⟨w, n, [], h.stored.length, h.delivered.length⟩ where
  offsets := rfl
  stored_le := le_rfl
  delivered_le := le_rfl
  stored := by simp [movedBy_length]
  delivered := by simp [movedBy_length]

lemma congr (hok : CallOk h t c) (hs : h'.stored = h.stored) (hd : h'.delivered = h.delivered) :
    CallOk h' t c :=
  ⟨hok.offsets, hs ▸ hok.stored_le, hd ▸ hok.delivered_le, hs ▸ hok.stored, hd ▸ hok.delivered⟩

/-- Another thread stores a byte. -/
lemma store_of_ne (hok : CallOk h u c) (hu : u ≠ t) (hs : h'.stored = h.stored ++ [(t, b)])
    (hd : h'.delivered = h.delivered) : CallOk h' u c where
  offsets := hok.offsets
  stored_le := by
    rw [hs, length_append]
    exact hok.stored_le.trans (Nat.le_add_right _ _)
  delivered_le := hd ▸ hok.delivered_le
  stored := by rw [hs, movedBy_append hok.stored_le, if_neg hu.symm, append_nil, hok.stored]
  delivered := hd ▸ hok.delivered

/-- Another thread takes a byte. -/
lemma take_of_ne (hok : CallOk h u c) (hu : u ≠ t) (hs : h'.stored = h.stored)
    (hd : h'.delivered = h.delivered ++ [(t, b)]) : CallOk h' u c where
  offsets := hok.offsets
  stored_le := hs ▸ hok.stored_le
  delivered_le := by
    rw [hd, length_append]
    exact hok.delivered_le.trans (Nat.le_add_right _ _)
  stored := hs ▸ hok.stored
  delivered := by
    rw [hd, movedBy_append hok.delivered_le, if_neg hu.symm, append_nil, hok.delivered]

lemma offsets_append (hok : CallOk h t c) :
    (c.copied ++ [(c.copied.length, b)]).map Prod.fst =
      range (c.copied ++ [(c.copied.length, b)]).length := by
  rw [map_append, hok.offsets, length_append, length_singleton, range_succ]
  rfl

/-- The writer itself stores a byte. -/
lemma store (hok : CallOk h t c) (hw : c.writes = true) (hs : h'.stored = h.stored ++ [(t, b)])
    (hd : h'.delivered = h.delivered) :
    CallOk h' t { c with copied := c.copied ++ [(c.copied.length, b)] } where
  offsets := hok.offsets_append
  stored_le := by
    rw [hs, length_append]
    exact hok.stored_le.trans (Nat.le_add_right _ _)
  delivered_le := hd ▸ hok.delivered_le
  stored := by simp [hs, movedBy_append hok.stored_le, hok.stored, hw]
  delivered := by simp [hd, hok.delivered, hw]

/-- The reader itself takes a byte. -/
lemma take (hok : CallOk h t c) (hw : c.writes = false) (hs : h'.stored = h.stored)
    (hd : h'.delivered = h.delivered ++ [(t, b)]) :
    CallOk h' t { c with copied := c.copied ++ [(c.copied.length, b)] } where
  offsets := hok.offsets_append
  stored_le := hs ▸ hok.stored_le
  delivered_le := by
    rw [hd, length_append]
    exact hok.delivered_le.trans (Nat.le_add_right _ _)
  stored := by simp [hs, hok.stored, hw]
  delivered := by simp [hd, movedBy_append hok.delivered_le, hok.delivered, hw]

end CallOk

/-! ## Every step keeps it -/

lemma pipeAct_lockOk (hl : pipeCode pi l = .act f) : (Instr.act f).LockOk PipePc.holds l :=
  fun _ _ _ _ h => (pipeAct_of_next hl h).keeps_lock.1

lemma pipeCode_lockOk (pi : ℕ) (l : PipePc) : (pipeCode pi l).LockOk PipePc.holds l := by
  cases l
  case idle | wTest | wFull | rTest | rCopy | cSet | cTest | cFree =>
    exact pipeAct_lockOk (show pipeCode pi _ = _ from rfl)
  case cRelease free => cases free <;> exact ⟨rfl, rfl⟩
  all_goals first | rfl | exact ⟨rfl, rfl⟩

/-- No action of the pipe's code panics. -/
lemma pipeCode_ne_panic {x : Pipe} {ch : PipeChoice} {msg : String} (hl : pipeCode pi l = .act f) :
    f x ch ≠ .panic msg := by
  intro hf
  cases l with
  | idle | wFull | rCopy =>
    cases hl
    dsimp only at hf
    split_ifs at hf
    all_goals cases ch <;> cases hf
  | wTest | rTest =>
    cases hl
    dsimp only at hf
    split_ifs at hf
  | cSet | cTest | cFree =>
    cases hl
    cases hf
  | _ => cases hl

namespace PipePc

variable {pi : ℕ} {l l' : PipePc} {c : PipeCall} {x x' : Pipe}

/-- A thread that moves on without an action has copied what it had copied. -/
lemma Copied.next (hn : (pipeCode pi l).Next l') (h : l.Copied c x) : l'.Copied c x := by
  cases l
  case wKilled =>
    rcases hn with rfl | rfl
    · exact h.1
    · exact h
  case rKilled =>
    rcases hn with rfl | rfl
    · exact ⟨h.1, h.2.2⟩
    · exact h
  case wFail =>
    obtain rfl := hn
    exact ⟨fun hret => absurd hret (by decide), fun hw => absurd (hw.symm.trans h) (by decide)⟩
  case rFail =>
    obtain rfl := hn
    exact ⟨fun hret => absurd hret (by decide), fun _ _ => h.2⟩
  case wRelease =>
    obtain rfl := hn
    exact ⟨h.2, fun hw => absurd (hw.symm.trans h.1) (by decide)⟩
  case rRelease =>
    obtain rfl := hn
    exact ⟨h.2.1, fun _ => h.2.2.1⟩
  case idle | wTest | wFull | rTest | rCopy => exact hn.elim
  case cAcquire | cSet | cWake | cTest | cRelease | cFree => exact h.elim
  all_goals
    obtain rfl := hn
    exact h

lemma outside_next (hn : (pipeCode pi l).Next l') (h : l.outside = true) : l'.outside = true := by
  cases l
  case cRelease free => cases free <;> (obtain rfl := hn; rfl)
  case cAcquire | cWake =>
    obtain rfl := hn
    rfl
  case idle | cSet | cTest | cFree => exact hn.elim
  all_goals cases h

/-- Only the holder of the lock knows anything of the pipe. -/
lemma Copied.of_not_holds (hl : l.holds = false) (h : l.Copied c x) : l.Copied c x' := by
  cases l <;> first | exact h | cases hl

lemma copied_freed (x : Pipe) : l.Copied c { x with freed := true } ↔ l.Copied c x := by
  cases l <;> exact Iff.rfl

end PipePc

section copyFailed

variable {i : ℕ} {c : PipeCall}

lemma copyFailed_eq (hi : c.copied.length = i) (h : 0 ≤ copyFailed i) :
    (c.copied.length : ℤ) = copyFailed i := by
  unfold copyFailed at h ⊢
  split_ifs at h ⊢
  · exact absurd h (by decide)
  · exact congrArg Nat.cast hi

lemma copyFailed_neg (hi : c.copied.length = i) (h : copyFailed i < 0) : c.copied = [] := by
  unfold copyFailed at h
  split_ifs at h with h0
  · exact eq_nil_of_length_eq_zero (hi.trans h0)
  · omega

lemma copyFailed_ne_zero (i : ℕ) : copyFailed i ≠ 0 := by
  unfold copyFailed
  split_ifs
  · decide
  · omega

end copyFailed

namespace PipeInv

variable {pi : ℕ} {s s' : Threads Pipe PipePc} {h h' : PipeHist} {t : ℕ} {l l' : PipePc}
  {ch : PipeChoice}

section

variable (hinv : PipeInv s h)
include hinv

/-- A step of thread `t`. -/
lemma of_thread (hlock : s'.Locked PipePc.holds) (hpcs : s'.pcs = update s.pcs t l')
    (hfifo : RingFifo PIPESIZE s'.sh.data s'.sh.nread s'.sh.nwrite s'.sh.stored s'.sh.delivered)
    (hstored : h'.stored.map Prod.snd = s'.sh.stored)
    (hdelivered : h'.delivered.map Prod.snd = s'.sh.delivered)
    (hcall : ∀ u, u ≠ t → h'.call u = h.call u)
    (hok : ∀ u c, u ≠ t → CallOk h u c → CallOk h' u c)
    (hcopied : ∀ u c, u ≠ t → (s.pcs u).Copied c s.sh → (s.pcs u).Copied c s'.sh)
    (hout : h'.call t = none → l'.outside = true)
    (hown : ∀ c, h'.call t = some c → CallOk h' t c ∧ l'.Copied c s'.sh) : PipeInv s' h' := by
  refine ⟨hlock, hfifo, hstored, hdelivered, ?_, ?_⟩
  · rw [hpcs]
    exact (forall_update_iff s.pcs fun u l => h'.call u = none → l.outside = true).mpr
      ⟨hout, fun u hut hu => hinv.noCall u (hcall u hut ▸ hu)⟩
  · rw [hpcs]
    refine (forall_update_iff s.pcs fun u l => ∀ c, h'.call u = some c →
      CallOk h' u c ∧ l.Copied c s'.sh).mpr ⟨hown, fun u hut c hu => ?_⟩
    obtain ⟨hcok, hcop⟩ := hinv.call u c (hcall u hut ▸ hu)
    exact ⟨hok u c hut hcok, hcopied u c hut hcop⟩

/-- A step of thread `t` that leaves the pipe and the record as they are. -/
lemma of_move (hlock : s'.Locked PipePc.holds)
    (hpcs : s'.pcs = update s.pcs t l') (hsh : s'.sh = s.sh)
    (hout : (s.pcs t).outside = true → l'.outside = true)
    (hown : ∀ c, (s.pcs t).Copied c s.sh → l'.Copied c s.sh) : PipeInv s' h := by
  refine hinv.of_thread hlock hpcs ?_ ?_ ?_ (fun _ _ => rfl) (fun _ _ _ => id) ?_
    (fun ht => hout (hinv.noCall t ht)) fun c hc => ?_
  · rw [hsh]
    exact hinv.fifo
  · rw [hsh]
    exact hinv.stored
  · rw [hsh]
    exact hinv.delivered
  · rw [hsh]
    exact fun _ _ _ => id
  · obtain ⟨hcok, hcop⟩ := hinv.call t c hc
    exact ⟨hcok, hsh ▸ hown c hcop⟩

/-- What a thread without the lock knows does not depend on the pipe. -/
lemma copied_of_lock (ht : (s.pcs t).holds = true) (x : Pipe) (u : ℕ)
    (c : PipeCall) (hu : u ≠ t) (hc : (s.pcs u).Copied c s.sh) : (s.pcs u).Copied c x :=
  hc.of_not_holds (by
    by_contra hh
    exact hu (hinv.lock.unique (by simpa using hh) ht))

/-- A thread that copies a byte is in a call, to which the byte is added. -/
lemma exists_copy (hin : (s.pcs t).outside = false) (i : ℕ) (b : Byte) : ∃ c, h.call t = some c ∧
    (h.copy t i b).call t = some { c with copied := c.copied ++ [(i, b)] } := by
  cases hcall : h.call t with
  | none => exact absurd (hin.symm.trans (hinv.noCall t hcall)) (by simp)
  | some c => exact ⟨c, rfl, by simp [PipeHist.copy, PipeHist.setCall, hcall]⟩

variable (hlock : s'.Locked PipePc.holds)
include hlock

/-- `pipewrite` stores a byte. -/
lemma store {i : ℕ} {n : ℤ} {fresh : Bool} {b : Byte} (hl : s.pcs t = .wFull i n fresh)
    (hfull : ¬s.sh.Full) (hpcs : s'.pcs = update s.pcs t (.wTest (i + 1) n true))
    (hsh : s'.sh = s.sh.store b) : PipeInv s' { h.copy t i b with stored := h.stored ++ [(t, b)] } := by
  obtain ⟨c₀, hcall, hcopy⟩ := hinv.exists_copy (by rw [hl]; rfl) i b
  refine hinv.of_thread hlock hpcs ?_ ?_ ?_ ?_ ?_ ?_ ?_ ?_
  · rw [hsh]
    exact hinv.fifo.store (by decide) (by decide) hfull b
  · rw [hsh, map_append, hinv.stored]
    rfl
  · rw [hsh]
    exact hinv.delivered
  · exact fun u hu => update_of_ne hu _ _
  · exact fun u c hu hok => hok.store_of_ne hu rfl rfl
  · exact hinv.copied_of_lock (by rw [hl]; rfl) _
  · exact fun hnone => absurd (hnone.symm.trans hcopy) (by simp)
  · intro c hc
    obtain rfl := Option.some.inj (hcopy.symm.trans hc)
    obtain ⟨hok, hcop⟩ := hinv.call t c₀ hcall
    rw [hl] at hcop
    obtain ⟨hw, hn, rfl⟩ := hcop
    exact ⟨hok.store hw rfl rfl, hw, hn, by simp⟩

/-- `piperead` takes a byte. -/
lemma take {i : ℕ} {n : ℤ} (hl : s.pcs t = .rCopy i n) (hempty : ¬s.sh.Empty)
    (hpcs : s'.pcs = update s.pcs t (.rCopy (i + 1) n)) (hsh : s'.sh = s.sh.take) :
    PipeInv s'
      { h.copy t i s.sh.front with delivered := h.delivered ++ [(t, s.sh.front)] } := by
  obtain ⟨c₀, hcall, hcopy⟩ := hinv.exists_copy (by rw [hl]; rfl) i s.sh.front
  refine hinv.of_thread hlock hpcs ?_ ?_ ?_ ?_ ?_ ?_ ?_ ?_
  · rw [hsh]
    exact hinv.fifo.take (by decide) (by decide) hempty
  · rw [hsh]
    exact hinv.stored
  · rw [hsh, map_append, hinv.delivered]
    rfl
  · exact fun u hu => update_of_ne hu _ _
  · exact fun u c hu hok => hok.take_of_ne hu rfl rfl
  · exact hinv.copied_of_lock (by rw [hl]; rfl) _
  · exact fun hnone => absurd (hnone.symm.trans hcopy) (by simp)
  · intro c hc
    obtain rfl := Option.some.inj (hcopy.symm.trans hc)
    obtain ⟨hok, hcop⟩ := hinv.call t c₀ hcall
    rw [hl] at hcop
    obtain ⟨hw, hn, rfl, -⟩ := hcop
    exact ⟨hok.take hw rfl rfl, hw, hn, by simp, fun h0 => absurd h0 (by simp)⟩

/-- A thread begins a call: `c` is the record of it, none for `pipeclose`. -/
lemma begin {c : Option PipeCall} (hpcs : s'.pcs = update s.pcs t l') (hsh : s'.sh = s.sh)
    (hout : c = none → l'.outside = true)
    (hown : ∀ c₀, c = some c₀ → CallOk h t c₀ ∧ l'.Copied c₀ s.sh) :
    PipeInv s' (h.setCall t c) := by
  have hself : (h.setCall t c).call t = c := update_self ..
  refine hinv.of_thread hlock hpcs ?_ ?_ ?_ (fun u hu => update_of_ne hu _ _)
    (fun _ _ _ hok => hok.congr rfl rfl) ?_ (fun hnone => hout (hself ▸ hnone)) fun c₀ hc => ?_
  · rw [hsh]
    exact hinv.fifo
  · rw [hsh]
    exact hinv.stored
  · rw [hsh]
    exact hinv.delivered
  · rw [hsh]
    exact fun _ _ _ => id
  · obtain ⟨hok, hcop⟩ := hown c₀ (hself ▸ hc)
    exact ⟨hok.congr rfl rfl, hsh ▸ hcop⟩

/-- Closing an end or freeing the page: no call of this thread is under way. -/
lemma close (hpcs : s'.pcs = update s.pcs t l') (hno : ∀ c x, ¬(s.pcs t).Copied c x)
    (hout : l'.outside = true)
    (hfifo : RingFifo PIPESIZE s'.sh.data s'.sh.nread s'.sh.nwrite s'.sh.stored s'.sh.delivered)
    (hst : s'.sh.stored = s.sh.stored) (hdel : s'.sh.delivered = s.sh.delivered)
    (hcopied : ∀ u c, u ≠ t → (s.pcs u).Copied c s.sh → (s.pcs u).Copied c s'.sh) :
    PipeInv s' h :=
  hinv.of_thread hlock hpcs hfifo (hst ▸ hinv.stored) (hdel ▸ hinv.delivered) (fun _ _ => rfl)
    (fun _ _ _ => id) hcopied (fun _ => hout)
    fun c hc => absurd (hinv.call t c hc).2 (hno c s.sh)

/-- An action that only moves thread `t` on. -/
lemma move {l₁ : PipePc} (hl : s.pcs t = l) (hf : Outcome.next s.sh l₁ = .next s'.sh l')
    (hpcs : s'.pcs = update s.pcs t l') (hout : l.outside = false ∨ l₁.outside = true)
    (hown : ∀ c, l.Copied c s.sh → l₁.Copied c s.sh) : PipeInv s' h := by
  obtain ⟨hsh, rfl⟩ := Outcome.next.inj hf
  subst hl
  exact hinv.of_move hlock hpcs hsh.symm (fun ht => hout.resolve_left (by simp [ht])) hown

/-- An action of thread `t`. -/
lemma act {f : Pipe → PipeChoice → Outcome Pipe PipePc} (hl : s.pcs t = l) (hi : pipeCode pi l = .act f)
    (hf : f s.sh ch = .next s'.sh l') (hpcs : s'.pcs = update s.pcs t l') :
    PipeInv s' (h.record s.sh t ch l) := by
  cases l with
  | idle ret =>
    cases hi
    dsimp only at hf
    split at hf
    · cases hf
    · cases ch with
      | read n | write n =>
        obtain ⟨hsh, rfl⟩ := Outcome.next.inj hf
        refine hinv.begin hlock hpcs hsh.symm nofun fun c hc => ?_
        obtain rfl := Option.some.inj hc
        exact ⟨CallOk.start .., rfl, rfl, rfl⟩
      | close w =>
        obtain ⟨hsh, rfl⟩ := Outcome.next.inj hf
        exact hinv.begin hlock hpcs hsh.symm (fun _ => rfl) nofun
      | _ => cases hf
  | wTest i n fresh =>
    cases hi
    dsimp only at hf
    split_ifs at hf with hlt ho
    · exact hinv.move hlock hl hf hpcs (Or.inl rfl) fun c hc => hc.1
    · exact hinv.move hlock hl hf hpcs (Or.inl rfl) fun c hc => hc
    · exact hinv.move hlock hl hf hpcs (Or.inl rfl) fun c hc => ⟨hc.1, fun _ => congrArg Nat.cast hc.2.2⟩
  | wFull i n fresh =>
    cases hi
    dsimp only at hf
    split at hf
    case isTrue hfull =>
      have hrec : h.record s.sh t ch (.wFull i n fresh) = h := by
        cases ch <;> simp [PipeHist.record, hfull]
      rw [hrec]
      exact hinv.move hlock hl hf hpcs (Or.inl rfl) fun c hc => hc
    case isFalse hfull =>
      cases ch with
      | copied b =>
        obtain ⟨hsh, rfl⟩ := Outcome.next.inj hf
        rw [PipeHist.record, if_neg hfull]
        exact hinv.store hlock hl hfull hpcs hsh.symm
      | fault =>
        exact hinv.move hlock hl hf hpcs (Or.inl rfl) fun c hc => ⟨hc.1, copyFailed_eq hc.2.2⟩
      | _ => cases hf
  | rTest n =>
    cases hi
    dsimp only at hf
    split_ifs at hf with he
    · exact hinv.move hlock hl hf hpcs (Or.inl rfl) fun c hc => hc
    · refine hinv.move hlock hl hf hpcs (Or.inl rfl) ?_
      exact fun c hc => ⟨hc.1, hc.2.1, by rw [hc.2.2]; rfl, fun _ hempty => by simpa [hempty] using he⟩
  | rCopy i n =>
    cases hi
    dsimp only at hf
    split_ifs at hf with hlt he
    · have hrec : h.record s.sh t ch (.rCopy i n) = h := by
        cases ch <;> simp [PipeHist.record, he]
      rw [hrec]
      refine hinv.move hlock hl hf hpcs (Or.inl rfl) ?_
      exact fun c ⟨hw, hn, hi, hopen⟩ => ⟨hw, fun _ => congrArg Nat.cast hi,
        fun hneg => absurd hneg (by omega), fun h0 _ => ⟨he, hopen (by omega) he⟩⟩
    · cases ch with
      | copied b =>
        obtain ⟨hsh, rfl⟩ := Outcome.next.inj hf
        rw [PipeHist.record, if_pos ⟨hlt, he⟩]
        exact hinv.take hlock hl he hpcs hsh.symm
      | fault =>
        refine hinv.move hlock hl hf hpcs (Or.inl rfl) ?_
        exact fun c ⟨hw, hn, hi, hopen⟩ => ⟨hw, copyFailed_eq hi, copyFailed_neg hi,
          fun h0 => absurd h0 (copyFailed_ne_zero i)⟩
      | _ => cases hf
    · have hrec : h.record s.sh t ch (.rCopy i n) = h := by
        cases ch <;> simp [PipeHist.record, hlt]
      rw [hrec]
      refine hinv.move hlock hl hf hpcs (Or.inl rfl) ?_
      exact fun c ⟨hw, hn, hi, hopen⟩ => ⟨hw, fun _ => congrArg Nat.cast hi,
        fun hneg => absurd hneg (by omega), fun h0 hpos => absurd hpos (by omega)⟩
  | cSet w =>
    cases hi
    obtain ⟨hsh, rfl⟩ := Outcome.next.inj hf
    refine hinv.close hlock hpcs (by rw [hl]; exact fun _ _ => id) rfl ?_ ?_ ?_
      (hinv.copied_of_lock (by rw [hl]; rfl) _) <;>
    · rw [← hsh]
      cases w <;> first | exact hinv.fifo | rfl
  | cTest =>
    cases hi
    exact hinv.move hlock hl hf hpcs (Or.inr rfl) fun _ => False.elim
  | cFree =>
    cases hi
    obtain ⟨hsh, rfl⟩ := Outcome.next.inj hf
    refine hinv.close hlock hpcs (by rw [hl]; exact fun _ _ => id) rfl ?_ ?_ ?_ ?_
    · rw [← hsh]
      exact hinv.fifo
    · rw [← hsh]
    · rw [← hsh]
    · rw [← hsh]
      exact fun u c _ => ((s.pcs u).copied_freed s.sh).2
  | _ => cases hi

lemma of_same (hsh : s'.sh = s.sh) (hpcs : s'.pcs = s.pcs) : PipeInv s' h :=
  ⟨hlock, hsh ▸ hinv.fifo, hsh ▸ hinv.stored, hsh ▸ hinv.delivered, hpcs ▸ hinv.noCall,
    hsh ▸ hpcs ▸ hinv.call⟩

end

/-- Only an action is recorded. -/
lemma record_of_next (hn : (pipeCode pi l).Next l') : h.record s.sh t ch l = h := by
  cases l with
  | idle | wFull | rCopy => exact hn.elim
  | _ => rfl

lemma step {a : ThreadStep PipeChoice} (hinv : PipeInv s h)
    (hs : pipeStep pi (s, h) a = some (s', h')) : PipeInv s' h' := by
  obtain ⟨u, hstep, heq⟩ := Option.map_eq_some_iff.1 hs
  obtain ⟨rfl, rfl⟩ := Prod.mk.inj heq
  have hlock : u.Locked PipePc.holds := hinv.lock.step (pipeCode_lockOk pi) hstep
  obtain ⟨-, hacts⟩ := Threads.acts_of_step hstep
  have hpos : ∀ {t l}, s.ctl t = .pc l → s.pcs t = l := fun hpc => congrArg Ctl.pos hpc
  -- A move that is not an action is not recorded.
  have hrec : ∀ {t ch l l'}, s.ctl t = .pc l → (pipeCode pi l).Next l' →
      h.next s (.run t ch) = h := by
    intro t ch l l' hpc hn
    rw [PipeHist.next, hpc]
    exact record_of_next hn
  have hmove : ∀ {t ch l l'}, s.ctl t = .pc l → (pipeCode pi l).Next l' → u.sh = s.sh →
      u.pcs = update s.pcs t l' → PipeInv u (h.next s (.run t ch)) := by
    intro t ch l l' hpc hn hsh hpcs
    rw [hrec hpc hn]
    rw [← hpos hpc] at hn
    exact hinv.of_move hlock hpcs hsh (PipePc.outside_next hn) fun c => PipePc.Copied.next hn
  cases hacts with
  | kkill | yield | schedule => exact hinv.of_same hlock rfl rfl
  | scan t ch c k l ht hrun hpc | scanEnd t ch c k l ht hrun hpc =>
    rw [PipeHist.next, hpc]
    refine hinv.of_same hlock rfl ?_
    rw [Threads.pcs_goto]
    exact (congrArg _ (congrArg Ctl.pos hpc).symm).trans (update_eq_self _ _)
  | acquire t ch l l' ht hrun hpc hi | release t ch l l' ht hrun hpc hi
  | sleepPrepare t ch l c l' ht hrun hpc hi | sleep t ch l l' ht hrun hpc hi
  | wakeup t ch l c l' ht hrun hpc hi =>
    exact hmove hpc (show Instr.Next _ l' by rw [hi]; rfl) rfl (Threads.pcs_goto ..)
  | killed t ch l yes no ht hrun hpc hi =>
    refine hmove hpc (show Instr.Next _ _ from ?_) rfl (Threads.pcs_goto ..)
    rw [hi]
    change (if _ then yes else no) = yes ∨ (if _ then yes else no) = no
    split
    · exact Or.inl rfl
    · exact Or.inr rfl
  | badRelease t ch l l' ht hpc hi | zeroChan t ch l l' ht hpc hi =>
    change PipeInv _ (h.next s (.run t ch))
    rw [hrec hpc (show (pipeCode pi l).Next l' by rw [hi]; rfl)]
    exact hinv.of_same hlock rfl rfl
  | act t ch l f x l' ht hrun hpc hi hf =>
    rw [PipeHist.next, hpc]
    exact hinv.act hlock (hpos hpc) hi hf (Threads.pcs_goto ..)
  | panic t ch l f msg ht hpc hi hf => exact absurd hf (pipeCode_ne_panic hi)

end PipeInv

lemma PipeFresh.pipeInv {s : Threads Pipe PipePc} (h : PipeFresh pi s) :
    PipeInv s PipeHist.init := by
  obtain ⟨data, hsh⟩ := h.sh
  have hidle : ∀ t, ∃ ret, s.pcs t = .idle ret := fun t => by
    obtain ⟨ret, hret⟩ := h.ctl t
    exact ⟨ret, congrArg Ctl.pos hret⟩
  refine ⟨fun t => ?_, ?_, ?_, ?_, fun t _ => ?_, nofun⟩
  · obtain ⟨ret, hret⟩ := hidle t
    rw [h.lock, hret]
    exact ⟨nofun, nofun⟩
  · rw [hsh]
    exact RingFifo.empty _ _
  · rw [hsh]
    rfl
  · rw [hsh]
    rfl
  · obtain ⟨ret, hret⟩ := hidle t
    rw [hret]
    rfl

/-- **A pipe is a lossless FIFO**, for any readers, writers and closers, whichever of their user
copies fail, and however often the counters wrap.  In every state reached
* `nwrite - nread`, modulo `2 ^ 32`, is the number of bytes in the buffer, at most `PIPESIZE`;
* the bytes delivered are the first ones of those stored, and the others are in the buffer, in
  order;
* a call has copied the bytes at the offsets `0`, `1`, … of the user's buffer; a `pipewrite` has
  stored just the bytes it copied in, a `piperead` has taken just the bytes it copied out, and
  neither has done anything else to the pipe;
* a call that returned `ret ≥ 0` has copied `ret` bytes, a `piperead` that returned `-1` none; and
* when a `piperead` of a positive size is about to return `0`, the pipe is empty and its write end
  closed. -/
theorem pipe_lossless_fifo (pi : ℕ) (s₀ s : Threads Pipe PipePc)
    (as : List (ThreadStep PipeChoice)) (h₀ : PipeFresh pi s₀)
    (hrun : run (Threads.step (pipeCode pi)) s₀ as = some s) :
    ∃ h, run (pipeStep pi) (s₀, PipeHist.init) as = some (s, h) ∧
      h.stored.map Prod.snd = s.sh.stored ∧ h.delivered.map Prod.snd = s.sh.delivered ∧
      (s.sh.nwrite - s.sh.nread).toNat = s.sh.stored.length - s.sh.delivered.length ∧
      s.sh.stored.length - s.sh.delivered.length ≤ PIPESIZE ∧
      s.sh.delivered <+: s.sh.stored ∧
      (∀ j, s.sh.delivered.length + j < s.sh.stored.length →
        s.sh.stored[s.sh.delivered.length + j]? =
          some (s.sh.data ((s.sh.nread.toNat + j) % PIPESIZE))) ∧
      ∀ t c, h.call t = some c →
        c.copied.map Prod.fst = List.range c.copied.length ∧
        movedBy t c.stored h.stored = (if c.writes then c.copied.map Prod.snd else []) ∧
        movedBy t c.delivered h.delivered = (if c.writes then [] else c.copied.map Prod.snd) ∧
        (∀ ret, s.pcs t = .idle ret →
          (0 ≤ ret → c.copied.length = ret) ∧ (c.writes = false → ret < 0 → c.copied = [])) ∧
        ((s.pcs t = .rWake 0 ∨ s.pcs t = .rRelease 0) → 0 < c.size →
          s.sh.nread = s.sh.nwrite ∧ s.sh.writeopen = false) := by
  obtain ⟨h, hrec⟩ := exists_run_pipeStep hrun PipeHist.init
  have hinv : PipeInv s h :=
    run_invariant (I := fun u => PipeInv u.1 u.2) (fun _ _ _ hu hstep => hu.step hstep)
      h₀.pipeInv hrec
  refine ⟨h, hrec, hinv.stored, hinv.delivered, hinv.fifo.toNat_sub (by decide),
    Nat.sub_le_iff_le_add'.2 hinv.fifo.room, hinv.fifo.isPrefix, fun j hj => ?_, fun t c hc => ?_⟩
  · rw [List.getElem?_eq_getElem hj, ← hinv.fifo.slot _ (Nat.le_add_right _ j) hj]
    rw [hinv.fifo.rd_eq, Nat.add_mod, Nat.add_mod (BitVec.toNat _), RingFifo.toNat_mod (by decide)]
  · obtain ⟨hok, hcop⟩ := hinv.call t c hc
    refine ⟨hok.offsets, hok.stored, hok.delivered, fun ret hret => ?_, fun hpc hsize => ?_⟩
    · rw [hret] at hcop
      exact hcop
    · rcases hpc with hpc | hpc <;>
      · rw [hpc] at hcop
        exact hcop.2.2.2 rfl hsize

/-- Process 0 calls `pipewrite` and stores two bytes. -/
def writeTwo : List (ThreadStep PipeChoice) :=
  .run 0 (.write 2) :: List.replicate 3 (.run 0 .fault) ++
    [.run 0 (.copied 7), .run 0 .fault, .run 0 .fault, .run 0 (.copied 8), .run 0 .fault]

theorem pipe_lossless_fifo_two : ∃ s,
    run (Threads.step (pipeCode 0x87f00000)) twoOnPipe writeTwo = some s ∧
    s.sh.stored = [7, 8] ∧ s.sh.delivered = [] ∧ s.ctl 0 = .pc (.wDone 2) ∧
    (s.sh.nwrite - s.sh.nread).toNat = 2 := by
  refine ⟨_, rfl, rfl, rfl, rfl, ?_⟩
  obtain ⟨h, -, -, -, hsub, -⟩ := pipe_lossless_fifo 0x87f00000 twoOnPipe _ writeTwo
    (twoOnPipe_fresh _) rfl
  exact hsub

end Xv6
