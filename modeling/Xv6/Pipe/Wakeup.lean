import Xv6.Pipe.Basic

/-!
# Who sleeps on a pipe

A reader should sleep only on an empty pipe that can still be written to, a writer only on a full
pipe that can still be read.  Both are instances of the waiting rule: every change that ends such
a wait is followed by a wakeup before `pi->lock` is released, with one exception.  `pipewrite`
tests `killed(pr)` again after every byte it stores, and when the test succeeds it returns at once,
without the wakeup that the bytes stored so far call for (`pipewrite_killed_strands_reader`).  In
runs where no writer is found killed at that point the property holds (`pipe_no_stranded`).
-/

namespace Xv6

open Pipe

namespace PipePc

/-- The positions inside the critical section of `pi->lock`. -/
@[simp] def holds : PipePc → Bool
  | .idle _ | .wAcquire .. | .wSleep .. | .rAcquire _ | .rSleep _ | .cAcquire _ | .cFree => false
  | _ => true

/-- What the holder of `pi->lock` knows.  It keeps the lock from the test of `pi->readopen` on, so
after storing a byte it still knows that the read end is open. -/
@[simp] def assert : PipePc → Pipe → Prop
  | .wTest _ _ fresh, x => fresh = true → x.readopen = true
  | .wKilled .., x | .wFull .., x => x.readopen = true
  | .wWake .., x | .wPrepare .., x => x.Full ∧ x.readopen = true
  | .wFail fresh, _ => fresh = false
  | .rKilled _, x | .rPrepare _, x => x.Empty ∧ x.writeopen = true
  | _, _ => True

/-- The channel registered when the thread goes to sleep. -/
@[simp] def armed (pi : ℕ) : PipePc → Option ℕ
  | .wUnlock .. | .wSleep .. => some (nwriteChan pi)
  | .rUnlock _ | .rSleep _ => some (nreadChan pi)
  | _ => none

/-- The second and later `killed` tests of a `pipewrite`, between the storing of a byte and the
wakeup of the readers. -/
@[simp] def Unwoken : PipePc → Prop
  | .wKilled _ _ fresh => fresh = true
  | _ => False

/-- Where the readers still have to be woken. -/
@[simp] def owesReaders : PipePc → Prop
  | .wTest _ _ fresh | .wKilled _ _ fresh | .wFull _ _ fresh => fresh = true
  | .wWake .. | .wDone _ => True
  | .cWake w => w = true
  | _ => False

/-- Where the writers still have to be woken. -/
@[simp] def owesWriters : PipePc → Prop
  | .rCopy .. | .rWake _ => True
  | .cWake w => w = false
  | _ => False

end PipePc

/-- The annotation of the pipe's code for those who sleep on `chan` while `waits` holds, and are
owed a wakeup where `owes` says so. -/
def pipeMonitor (pi chan : ℕ) (waits : Pipe → Prop) (owes : PipePc → Prop) :
    Monitor Pipe PipePc where
  chan := chan
  waits := fun _ => waits
  lockInv := fun _ => True
  holds := fun l => l.holds = true
  assert := PipePc.assert
  owes := owes
  armed := PipePc.armed pi
  exempt := PipePc.Unwoken

/-- The readers sleep on `&pi->nread`. -/
def readers (pi : ℕ) : Monitor Pipe PipePc :=
  pipeMonitor pi (nreadChan pi) (fun x => x.Empty ∧ x.writeopen = true) PipePc.owesReaders

/-- The writers sleep on `&pi->nwrite`. -/
def writers (pi : ℕ) : Monitor Pipe PipePc :=
  pipeMonitor pi (nwriteChan pi) (fun x => x.Full ∧ x.readopen = true) PipePc.owesWriters

/-! ## The actions -/

/-- What an action of the pipe's code can do. -/
inductive PipeAct : PipePc → Pipe → PipePc → Pipe → Prop
  | call (ret x l) (h : (∃ n, l = .rAcquire n) ∨ (∃ n, l = .wAcquire 0 n) ∨ ∃ w, l = .cAcquire w) :
    PipeAct (.idle ret) x l x
  | wClosed (i n fresh x) (h : x.readopen = false) : PipeAct (.wTest i n fresh) x (.wFail fresh) x
  | wOpen (i n fresh x) (h : x.readopen = true) :
    PipeAct (.wTest i n fresh) x (.wKilled i n fresh) x
  | wEnd (i n fresh x) : PipeAct (.wTest i n fresh) x (.wDone i) x
  | wFull (i n fresh x) (h : x.Full) : PipeAct (.wFull i n fresh) x (.wWake i n) x
  | wStore (i n fresh x b) (h : ¬x.Full) :
    PipeAct (.wFull i n fresh) x (.wTest (i + 1) n true) (x.store b)
  | wFault (i n fresh x) (h : ¬x.Full) : PipeAct (.wFull i n fresh) x (.wDone (copyFailed i)) x
  | rEmpty (n x) (h : x.Empty) (h' : x.writeopen = true) : PipeAct (.rTest n) x (.rKilled n) x
  | rReady (n x) : PipeAct (.rTest n) x (.rCopy 0 n) x
  | rTake (i n x) (h : ¬x.Empty) : PipeAct (.rCopy i n) x (.rCopy (i + 1) n) x.take
  | rEnd (i n ret x) : PipeAct (.rCopy i n) x (.rWake ret) x
  | cSet (w x) : PipeAct (.cSet w) x (.cWake w) (x.closeEnd w)
  | cTest (free x) : PipeAct .cTest x (.cRelease free) x
  | cFree (x : Pipe) : PipeAct .cFree x (.idle 0) { x with freed := true }

variable {pi chan : ℕ} {l l' : PipePc} {f : Pipe → PipeChoice → Outcome Pipe PipePc} {x x' : Pipe}
  {s : Threads Pipe PipePc}

lemma pipeAct_of_next {ch : PipeChoice} (hl : pipeCode pi l = .act f) (h : f x ch = .next x' l') :
    PipeAct l x l' x' := by
  cases l with
  | idle ret =>
    cases hl
    dsimp only at h
    split at h
    · cases h
    · cases ch <;> cases h <;> exact .call _ _ _ (by simp)
  | wTest i n fresh =>
    cases hl
    dsimp only at h
    split_ifs at h with hi ho
    · cases h
      exact .wClosed _ _ _ _ ho
    · cases h
      exact .wOpen _ _ _ _ (by simpa using ho)
    · cases h
      exact .wEnd ..
  | wFull i n fresh =>
    cases hl
    dsimp only at h
    split at h
    · cases h
      exact .wFull _ _ _ _ ‹_›
    · cases ch <;> cases h
      · exact .wStore _ _ _ _ _ ‹_›
      · exact .wFault _ _ _ _ ‹_›
  | rTest n =>
    cases hl
    dsimp only at h
    split_ifs at h with he
    · cases h
      exact .rEmpty _ _ he.1 he.2
    · cases h
      exact .rReady ..
  | rCopy i n =>
    cases hl
    dsimp only at h
    split_ifs at h with hi he
    · cases h
      exact .rEnd ..
    · cases ch <;> cases h
      · exact .rTake _ _ _ he
      · exact .rEnd ..
    · cases h
      exact .rEnd ..
  | cSet w =>
    cases hl
    cases h
    exact .cSet ..
  | cTest =>
    cases hl
    cases h
    exact .cTest ..
  | cFree =>
    cases hl
    cases h
    exact .cFree ..
  | _ => cases hl

lemma PipeAct.keeps_lock (h : PipeAct l x l' x') :
    l'.holds = l.holds ∧ ∀ pi, l'.armed pi = none := by
  cases h with
  | call ret x l hcall => rcases hcall with ⟨n, rfl⟩ | ⟨n, rfl⟩ | ⟨w, rfl⟩ <;> exact ⟨rfl, fun _ => rfl⟩
  | _ => exact ⟨rfl, fun _ => rfl⟩

lemma PipeAct.assert (h : PipeAct l x l' x') (hl : l.assert x) :
    l'.assert x' := by
  cases h with
  | call ret x l hcall => rcases hcall with ⟨n, rfl⟩ | ⟨n, rfl⟩ | ⟨w, rfl⟩ <;> trivial
  | wClosed i n fresh x hclosed => simpa [PipePc.assert, hclosed] using hl
  | wOpen i n fresh x hopen => exact hopen
  | wFull i n fresh x hfull => exact ⟨hfull, hl⟩
  | wStore i n fresh x b _ => exact fun _ => hl
  | rEmpty n x hempty hopen => exact ⟨hempty, hopen⟩
  | _ => trivial

/-- Outside the critical section an action changes nothing that the others look at. -/
lemma PipeAct.frame (h : PipeAct l x l' x') (hl : l.holds = false) :
    x' = x ∨ x' = { x with freed := true } := by
  cases h with
  | call => exact Or.inl rfl
  | cFree => exact Or.inr rfl
  | _ => exact absurd hl (by simp [PipePc.holds])

lemma PipePc.assert_freed (m : PipePc) (x : Pipe) :
    m.assert { x with freed := true } ↔ m.assert x := by
  cases m <;> exact Iff.rfl

/-- An action after which the pipe may have data or be closed owes the readers a wakeup. -/
lemma PipeAct.readers (h : PipeAct l x l' x') (hl : l.assert x)
    (hw : (x.Empty ∧ x.writeopen = true) ∨ l.owesReaders) :
    (x'.Empty ∧ x'.writeopen = true) ∨ l'.owesReaders := by
  cases h with
  | wClosed i n fresh x hclosed =>
    rcases hw with hw | hfresh
    · exact Or.inl hw
    · exact absurd (hl hfresh) (by simp [hclosed])
  | wEnd | wFull | wStore | wFault => exact Or.inr (by simp [PipePc.owesReaders])
  | rTake i n x hne =>
    rcases hw with hw | howes
    · exact absurd hw.1 hne
    · exact absurd howes (by simp [PipePc.owesReaders])
  | cSet w x =>
    cases w with
    | true => exact Or.inr rfl
    | false => exact Or.inl (hw.resolve_right (by simp [PipePc.owesReaders]))
  | wOpen => exact hw
  | _ => exact Or.inl (hw.resolve_right (by simp [PipePc.owesReaders]))

/-- An action after which the pipe may have room or be closed owes the writers a wakeup. -/
lemma PipeAct.writers (h : PipeAct l x l' x') (hw : (x.Full ∧ x.readopen = true) ∨ l.owesWriters) :
    (x'.Full ∧ x'.readopen = true) ∨ l'.owesWriters := by
  cases h with
  | wStore i n fresh x b hne =>
    rcases hw with hw | howes
    · exact absurd hw.1 hne
    · exact absurd howes (by simp [PipePc.owesWriters])
  | rReady | rTake | rEnd => exact Or.inr trivial
  | cSet w x =>
    cases w with
    | true => exact Or.inl (hw.resolve_right (by simp [PipePc.owesWriters]))
    | false => exact Or.inr rfl
  | _ => exact Or.inl (hw.resolve_right (by simp [PipePc.owesWriters]))

/-! ## The obligations of the waiting rule -/

lemma nwriteChan_ne_nreadChan (pi : ℕ) : nwriteChan pi ≠ nreadChan pi := by
  simp [nwriteChan, nreadChan]

/-- An action keeps the annotation if it keeps the condition of the sleepers or comes to owe them
a wakeup. -/
lemma pipeMonitor_ok_act {waits : Pipe → Prop} {owes : PipePc → Prop}
    (hpost : ∀ {l l' x x'}, PipeAct l x l' x' → l.assert x → waits x ∨ owes l →
      waits x' ∨ owes l') (hfreed : ∀ x, waits x → waits { x with freed := true })
    (hl : pipeCode pi l = .act f) :
    (pipeMonitor pi chan waits owes).Ok l (.act f) := by
  intro x ch x' l' _ h
  have hact := pipeAct_of_next hl h
  obtain ⟨hholds, harmed⟩ := hact.keeps_lock
  refine ⟨harmed pi, by simp only [pipeMonitor, hholds], fun _ hassert => ?_, fun hout => ?_⟩
  · exact ⟨hact.assert hassert, fun _ => hpost hact hassert⟩
  · rcases hact.frame (by simpa [pipeMonitor] using hout) with rfl | rfl
    · exact ⟨id, fun _ => id, fun _ => id⟩
    · exact ⟨id, fun m hm => (m.assert_freed x).mpr hm, fun _ => hfreed x⟩

lemma readers_ok (pi : ℕ) (l : PipePc) : (readers pi).Ok l (pipeCode pi l) := by
  cases l with
  | idle | wTest | wFull | rTest | rCopy | cSet | cTest | cFree =>
    exact pipeMonitor_ok_act PipeAct.readers (fun _ => id) rfl
  | wKilled i n fresh =>
    -- The early return is harmless only while no byte has been stored.
    cases fresh <;> simp [pipeCode, readers, pipeMonitor, Monitor.Ok, Monitor.Keeps]
  | cRelease free => cases free <;> simp [pipeCode, readers, pipeMonitor, Monitor.Ok]
  | cWake w => cases w <;> simp [pipeCode, readers, pipeMonitor, Monitor.Ok]
  | _ =>
    simp [pipeCode, readers, pipeMonitor, Monitor.Ok, Monitor.Keeps, nwriteChan_ne_nreadChan]

lemma writers_ok (pi : ℕ) (l : PipePc) : (writers pi).Ok l (pipeCode pi l) := by
  cases l with
  | idle | wTest | wFull | rTest | rCopy | cSet | cTest | cFree =>
    exact pipeMonitor_ok_act (fun h _ => h.writers) (fun _ => id) rfl
  | wKilled i n fresh =>
    cases fresh <;> simp [pipeCode, writers, pipeMonitor, Monitor.Ok, Monitor.Keeps]
  | cRelease free => cases free <;> simp [pipeCode, writers, pipeMonitor, Monitor.Ok]
  | cWake w => cases w <;> simp [pipeCode, writers, pipeMonitor, Monitor.Ok]
  | _ =>
    simp [pipeCode, writers, pipeMonitor, Monitor.Ok, Monitor.Keeps, (nwriteChan_ne_nreadChan pi).symm]

/-! ## Runs -/

/-- A system in which a pipe has just been allocated at `pi`. -/
structure PipeFresh (pi : ℕ) (s : Threads Pipe PipePc) : Prop where
  sh : ∃ data, s.sh = Pipe.alloc data
  lock : s.lock = none
  ctl : ∀ t, ∃ ret, s.ctl t = .pc (.idle ret)
  asleep : ∀ t, (s.proc t).state = .sleeping →
    (s.proc t).chan ≠ nreadChan pi ∧ (s.proc t).chan ≠ nwriteChan pi

lemma PipeFresh.inv {waits : Pipe → Prop} {owes : PipePc → Prop} (h : PipeFresh pi s)
    (hchan : chan = nreadChan pi ∨ chan = nwriteChan pi) :
    (pipeMonitor pi chan waits owes).Inv s := by
  have hpos : ∀ t, ∃ ret, (s.ctl t).pos = .idle ret := fun t => by
    obtain ⟨ret, hret⟩ := h.ctl t
    exact ⟨ret, by rw [hret]; rfl⟩
  refine ⟨fun t => ?_, fun _ => trivial, fun t ht => ?_, fun t l c hl hc => ?_,
    fun t c k l hl => ?_, fun t _ hr => ?_⟩
  · obtain ⟨ret, hret⟩ := hpos t
    rw [hret, h.lock]
    simp [pipeMonitor]
  · rw [h.lock] at ht
    exact absurd ht (by simp)
  · obtain ⟨ret, hret⟩ := h.ctl t
    rw [hret] at hl
    cases hl
    exact absurd hc (by simp [pipeMonitor])
  · obtain ⟨ret, hret⟩ := h.ctl t
    rw [hret] at hl
    exact absurd hl (by simp)
  · exfalso
    rcases hr.2 with hs | ⟨l, hl, ha⟩
    · rcases hchan with rfl | rfl
      · exact (h.asleep t hs).1 hr.1
      · exact (h.asleep t hs).2 hr.1
    · obtain ⟨ret, hret⟩ := h.ctl t
      rw [hret] at hl
      cases hl
      exact absurd ha (by simp [pipeMonitor])

/-- The step is the `killed(pr)` test of a writer that has stored bytes since it last woke the
readers, and the writer has been killed. -/
def KilledUnwoken (s : Threads Pipe PipePc) (a : ThreadStep PipeChoice) : Prop :=
  ∃ t ch i n, a = .run t ch ∧ s.ctl t = .pc (.wKilled i n true) ∧ (s.proc t).killed = true

lemma stepOk_of_not_killedUnwoken {waits : Pipe → Prop} {owes : PipePc → Prop}
    {a : ThreadStep PipeChoice} (h : ¬KilledUnwoken s a) :
    (pipeMonitor pi chan waits owes).StepOk s a := by
  rintro t ch l rfl hl hex
  cases l with
  | wKilled i n fresh =>
    obtain rfl : fresh = true := hex
    by_contra hk
    exact h ⟨t, ch, i, n, rfl, hl, by simpa using hk⟩
  | _ => exact hex.elim

/-- **Nobody is stranded on a pipe**, in the runs of any readers, writers and closers in which no
writer is found killed between storing a byte and waking the readers.  Whenever `pi->lock` is free,
a process sleeping on `&pi->nread` faces an empty pipe with an open write end, and a process
sleeping on `&pi->nwrite` a full pipe with an open read end; and no `pipewrite` leaves by its early
return with readers to be woken. -/
theorem pipe_no_stranded (pi : ℕ) (s₀ s : Threads Pipe PipePc) (as : List (ThreadStep PipeChoice))
    (h₀ : PipeFresh pi s₀)
    (hok : StepsOk (Threads.step (pipeCode pi)) (fun s a => ¬KilledUnwoken s a) s₀ as)
    (hrun : run (Threads.step (pipeCode pi)) s₀ as = some s) :
    (s.lock = none → ∀ t < NPROC, (s.proc t).state = .sleeping →
      ((s.proc t).chan = nreadChan pi → s.sh.nread = s.sh.nwrite ∧ s.sh.writeopen = true) ∧
      ((s.proc t).chan = nwriteChan pi →
        s.sh.nwrite = s.sh.nread + BitVec.ofNat 32 PIPESIZE ∧ s.sh.readopen = true)) ∧
    ∀ t, s.ctl t ≠ .pc (.wFail true) := by
  have hr : (readers pi).Inv s :=
    run_invariant_of_stepsOk (fun u a u' hu ha hstep =>
      hu.step (readers_ok pi) (by simp [readers, pipeMonitor, nreadChan]) (fun _ => trivial)
        (stepOk_of_not_killedUnwoken ha) hstep) (h₀.inv (Or.inl rfl)) hok hrun
  have hw : (writers pi).Inv s :=
    run_invariant_of_stepsOk (fun u a u' hu ha hstep =>
      hu.step (writers_ok pi) (by simp [writers, pipeMonitor, nwriteChan]) (fun _ => trivial)
        (stepOk_of_not_killedUnwoken ha) hstep) (h₀.inv (Or.inr rfl)) hok hrun
  refine ⟨fun hfree t ht hs => ⟨fun hc => hr.waits_of_sleeping hfree ht hs hc,
    fun hc => hw.waits_of_sleeping hfree ht hs hc⟩, fun t hctl => ?_⟩
  have hlock : s.lock = some t := by
    rw [hr.lock_iff t, hctl]
    rfl
  have hassert := hr.assert t hlock
  rw [hctl] at hassert
  exact absurd hassert (by simp [readers, pipeMonitor])

/-! ## A killed writer strands a reader -/

/-- Two running processes and a fresh pipe. -/
def twoOnPipe : Threads Pipe PipePc where
  sh := Pipe.alloc fun _ => 0
  lock := none
  proc := fun _ => { state := .running }
  ctl := fun _ => .pc (.idle 0)
  panicked := none

/-- Process 0 calls `piperead` on the empty pipe and goes to sleep. -/
def readerSleeps : List (ThreadStep PipeChoice) :=
  .run 0 (.read 1) :: List.replicate 6 (.run 0 .fault)

/-- Process 1 calls `pipewrite` with two bytes, stores the first, is killed, and returns. -/
def writerKilled : List (ThreadStep PipeChoice) :=
  .run 1 (.write 2) :: List.replicate 3 (.run 1 .fault) ++ [.run 1 (.copied 7), .kkill 1] ++
    List.replicate 3 (.run 1 .fault)

lemma twoOnPipe_fresh (pi : ℕ) : PipeFresh pi twoOnPipe where
  sh := ⟨_, rfl⟩
  lock := rfl
  ctl := fun _ => ⟨0, rfl⟩
  asleep := fun _ h => absurd h (by simp [twoOnPipe])

/-- The reader sleeps on an empty pipe. -/
theorem pipe_no_stranded_reader : ∃ s,
    run (Threads.step (pipeCode 0x87f00000)) twoOnPipe readerSleeps = some s ∧
    (s.proc 0).state = .sleeping ∧ s.sh.nread = s.sh.nwrite ∧ s.sh.writeopen = true := by
  refine ⟨_, rfl, rfl, ?_⟩
  refine ((pipe_no_stranded 0x87f00000 twoOnPipe _ readerSleeps (twoOnPipe_fresh _) ?_ rfl).1
    rfl 0 (by decide) rfl).1 rfl
  have hnot : ∀ {s : Threads Pipe PipePc} {ch : PipeChoice}, (s.proc 0).killed = false →
      ¬KilledUnwoken s (.run 0 ch) := by
    rintro s ch hk ⟨t, _, _, _, ha, -, ht⟩
    cases ha
    exact absurd ht (by simp [hk])
  repeat refine StepsOk.cons rfl (hnot rfl) ?_
  trivial

/-- **A killed writer strands a reader.**  Process 0 sleeps in `piperead` on the empty pipe.
Process 1 stores one byte, is killed before it stores the second, and returns `-1` without a
wakeup: the lock is free, and process 0 still sleeps on `&pi->nread` with a byte in the pipe. -/
theorem pipewrite_killed_strands_reader : PipeFresh 0x87f00000 twoOnPipe ∧ ∃ s,
    run (Threads.step (pipeCode 0x87f00000)) twoOnPipe (readerSleeps ++ writerKilled) = some s ∧
    s.lock = none ∧ s.ctl 1 = .pc (.idle (-1)) ∧ (s.proc 0).state = .sleeping ∧
    (s.proc 0).chan = nreadChan 0x87f00000 ∧ s.sh.nread ≠ s.sh.nwrite := by
  refine ⟨twoOnPipe_fresh _, _, rfl, rfl, rfl, rfl, rfl, by decide⟩

end Xv6
