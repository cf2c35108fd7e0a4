import Xv6.Proc.Thread

/-!
# Sleep-locks

`acquiresleep`, `releasesleep` and `holdingsleep` of `kernel/sleeplock.c` as a program of kernel
threads around the inner spinlock `lk->lk`.  A process may call any of the three at any time, also
`acquiresleep` while it has the lock, except that only a holder calls `releasesleep`.

The owner of the sleep-lock is told by the positions (`SleepPc.owns`): it is the process past the
store of `locked = 1` in `acquiresleep` and not past that of `locked = 0` in `releasesleep`.
`OwnerInv` relates it to the fields of the lock, and the waiting rule for kernel threads tells who
sleeps on it.
-/

namespace Xv6

open Function

/-- `struct sleeplock`, without the inner spinlock and the name. -/
structure Sleeplock where
  locked : ℕ  -- is the lock held?
  pid : ℤ  -- process holding lock
  deriving DecidableEq, Repr

/-- `initsleeplock`. -/
def initsleeplock : Sleeplock := { locked := 0, pid := 0 }

/-- The positions of the three functions.  The flag `held` tells whether the process had the
sleep-lock when it made the call. -/
inductive SleepPc
  | out (held : Bool)  -- in none of the functions
  | aAcquire (held : Bool)
  | aTest (held : Bool)
  | aPrepare (held : Bool)
  | aUnlock (held : Bool)
  | aSleep (held : Bool)
  | aSet
  | aPid
  | aRelease
  | rAcquire
  | rClear
  | rPid
  | rWake
  | rRelease
  | hAcquire (held : Bool)
  | hTest (held : Bool)
  | hRelease (held r : Bool)
  | hReturn (held r : Bool)
  deriving DecidableEq, Repr

/-- A position together with `myproc()->pid`. -/
structure SleepAt where
  me : ℤ
  pc : SleepPc
  deriving DecidableEq, Repr

/-- What a process does next where the code leaves it open. -/
inductive SleepCall
  | acquiresleep
  | releasesleep
  | holdingsleep
  | go
  deriving DecidableEq, Repr

/-- Another position of the same process. -/
@[simp] def SleepAt.goto (l : SleepAt) (pc : SleepPc) : SleepAt := { l with pc := pc }

/-- The code of the lock at address `chan`. -/
def sleeplockCode (chan : ℕ) (l : SleepAt) : Instr Sleeplock SleepAt SleepCall :=
  match l.pc with
  | .out held => .act fun x ch =>
    match ch with
    | .acquiresleep => .next x (l.goto (.aAcquire held))
    | .releasesleep => if held then .next x (l.goto .rAcquire) else .stuck
    | .holdingsleep => .next x (l.goto (.hAcquire held))
    | .go => .stuck
  -- acquiresleep
  | .aAcquire held => .acquire (l.goto (.aTest held))
  | .aTest held => .act fun x _ =>
    if x.locked ≠ 0 then .next x (l.goto (.aPrepare held)) else .next x (l.goto .aSet)
  | .aPrepare held => .sleepPrepare chan (l.goto (.aUnlock held))
  | .aUnlock held => .release (l.goto (.aSleep held))
  | .aSleep held => .sleep (l.goto (.aAcquire held))
  | .aSet => .act fun x _ => .next { x with locked := 1 } (l.goto .aPid)
  | .aPid => .act fun x _ => .next { x with pid := l.me } (l.goto .aRelease)
  | .aRelease => .release (l.goto (.out true))
  -- releasesleep
  | .rAcquire => .acquire (l.goto .rClear)
  | .rClear => .act fun x _ => .next { x with locked := 0 } (l.goto .rPid)
  | .rPid => .act fun x _ => .next { x with pid := 0 } (l.goto .rWake)
  | .rWake => .wakeup chan (l.goto .rRelease)
  | .rRelease => .release (l.goto (.out false))
  -- holdingsleep
  | .hAcquire held => .acquire (l.goto (.hTest held))
  | .hTest held => .act fun x _ =>
    .next x (l.goto (.hRelease held (decide (x.locked ≠ 0 ∧ x.pid = l.me))))
  | .hRelease held r => .release (l.goto (.hReturn held r))
  | .hReturn held _ => .act fun x _ => .next x (l.goto (.out held))

namespace SleepPc

/-- The process has the sleep-lock: it is past `locked = 1` and not past `locked = 0`. -/
@[simp] def owns : SleepPc → Bool
  | .out held | .aAcquire held | .aTest held | .aPrepare held | .aUnlock held | .aSleep held
  | .hAcquire held | .hTest held | .hRelease held _ | .hReturn held _ => held
  | .aPid | .aRelease | .rAcquire | .rClear => true
  | .aSet | .rPid | .rWake | .rRelease => false

/-- The positions inside the critical section of the inner spinlock. -/
@[simp] def holds : SleepPc → Bool
  | .aTest _ | .aPrepare _ | .aUnlock _ | .aSet | .aPid | .aRelease | .rClear | .rPid | .rWake
  | .rRelease | .hTest _ | .hRelease .. => true
  | .out _ | .aAcquire _ | .aSleep _ | .rAcquire | .hAcquire _ | .hReturn .. => false

/-- What the holder of the inner spinlock knows. -/
@[simp] def assert : SleepPc → Sleeplock → Prop
  | .aPrepare _, x => x.locked ≠ 0
  | .aSet, x | .rPid, x => x.locked = 0
  | _, _ => True

/-- Where the sleepers still have to be woken. -/
@[simp] def owes : SleepPc → Prop
  | .rPid | .rWake => True
  | _ => False

/-- The channel registered when the process goes to sleep. -/
@[simp] def armed (chan : ℕ) : SleepPc → Option ℕ
  | .aUnlock _ | .aSleep _ => some chan
  | _ => none

/-- The owner has written its pid into the lock. -/
@[simp] def named (l : SleepPc) : Bool := l.owns && l != .aPid

/-- The answer that `holdingsleep` is about to give is right. -/
@[simp] def answer : SleepPc → Prop
  | .hRelease held r | .hReturn held r => r = held
  | _ => True

lemma named_iff {l : SleepPc} : l.named = true ↔ l.owns = true ∧ l ≠ .aPid := by
  rw [named, Bool.and_eq_true, bne_iff_ne]

end SleepPc

/-! ## The actions -/

/-- What an action of a process with pid `me` can do. -/
inductive SleepAct (me : ℤ) : SleepPc → Sleeplock → SleepPc → Sleeplock → Prop
  | acquire (held x) : SleepAct me (.out held) x (.aAcquire held) x
  | release (x) : SleepAct me (.out true) x .rAcquire x
  | holding (held x) : SleepAct me (.out held) x (.hAcquire held) x
  | wait (held x) (h : x.locked ≠ 0) : SleepAct me (.aTest held) x (.aPrepare held) x
  | free (held x) (h : x.locked = 0) : SleepAct me (.aTest held) x .aSet x
  | set (x) : SleepAct me .aSet x .aPid { x with locked := 1 }
  | setPid (x) : SleepAct me .aPid x .aRelease { x with pid := me }
  | clear (x) : SleepAct me .rClear x .rPid { x with locked := 0 }
  | clearPid (x) : SleepAct me .rPid x .rWake { x with pid := 0 }
  | test (held x) :
    SleepAct me (.hTest held) x (.hRelease held (decide (x.locked ≠ 0 ∧ x.pid = me))) x
  | done (held r x) : SleepAct me (.hReturn held r) x (.out held) x

variable {chan : ℕ} {l l' : SleepAt} {f : Sleeplock → SleepCall → Outcome Sleeplock SleepAt}

lemma sleepAct_of_next {x x' : Sleeplock} {ch : SleepCall}
    (hf : sleeplockCode chan l = .act f) (hx : f x ch = .next x' l') :
    l' = l.goto l'.pc ∧ SleepAct l.me l.pc x l'.pc x' := by
  obtain ⟨me, pc⟩ := l
  cases pc <;> cases hf
  case out held =>
    cases ch with
    | acquiresleep =>
      cases hx
      exact ⟨rfl, .acquire held x⟩
    | releasesleep =>
      cases held with
      | true =>
        cases hx
        exact ⟨rfl, .release x⟩
      | false => cases hx
    | holdingsleep =>
      cases hx
      exact ⟨rfl, .holding held x⟩
    | go => cases hx
  case aTest held =>
    dsimp only at hx
    split at hx
    case isTrue h =>
      cases hx
      exact ⟨rfl, .wait held x h⟩
    case isFalse h =>
      cases hx
      exact ⟨rfl, .free held x (not_not.mp h)⟩
  all_goals
    cases hx
    exact ⟨rfl, by constructor⟩

/-- The other instructions keep the process and do not change who owns the lock. -/
lemma sleeplockCode_next (h : (sleeplockCode chan l).Next l') :
    l' = l.goto l'.pc ∧ l'.pc.owns = l.pc.owns ∧ (l'.pc.named = true → l.pc.named = true) ∧
      (l.pc.answer → l'.pc.answer) := by
  obtain ⟨me, pc⟩ := l
  cases pc <;> first | exact h.elim | (cases h; simp)

/-! ## The owner -/

/-- What the fields of the lock say of the owner. -/
structure OwnerInv (x : Sleeplock) (pcs : ℕ → SleepAt) : Prop where
  locked : x.locked = 0 ∨ x.locked = 1
  owned : x.locked = 1 ↔ ∃ t < NPROC, (pcs t).pc.owns = true
  lt : ∀ t, (pcs t).pc.owns = true → t < NPROC
  unique : ∀ t u, (pcs t).pc.owns = true → (pcs u).pc.owns = true → t = u
  pid : ∀ t, (pcs t).pc.named = true → x.pid = (pcs t).me
  answer : ∀ t, (pcs t).pc.answer

namespace OwnerInv

variable {x x' : Sleeplock} {pcs : ℕ → SleepAt} {t : ℕ} {l' : SleepAt}

section

variable (h : OwnerInv x pcs)
include h

lemma not_owns (hx : x.locked = 0) (u : ℕ) : (pcs u).pc.owns = false := by
  by_contra hu
  rw [Bool.not_eq_false] at hu
  have hone := h.owned.2 ⟨u, h.lt u hu, hu⟩
  omega

/-- A move that does not change who owns the lock. -/
lemma move (howns : l'.pc.owns = (pcs t).pc.owns) (hlocked : x'.locked = x.locked)
    (hpid : ∀ u, u ≠ t → (pcs u).pc.named = true → x'.pid = x.pid)
    (hself : l'.pc.named = true → x'.pid = l'.me) (hans : l'.pc.answer) :
    OwnerInv x' (update pcs t l') := by
  have hiff : ∀ u, (update pcs t l' u).pc.owns = (pcs u).pc.owns :=
    proj_update (fun l : SleepAt => l.pc.owns) howns
  refine ⟨by rw [hlocked]; exact h.locked, ?_, fun u hu => h.lt u (hiff u ▸ hu),
    fun u v hu hv => h.unique u v (hiff u ▸ hu) (hiff v ▸ hv), fun u hu => ?_, fun u => ?_⟩
  · simp only [hiff, hlocked]
    exact h.owned
  · by_cases hut : u = t
    · subst hut
      rw [update_self] at hu ⊢
      exact hself hu
    · rw [update_of_ne hut] at hu ⊢
      rw [hpid u hut hu, h.pid u hu]
  · by_cases hut : u = t
    · rw [hut, update_self]
      exact hans
    · rw [update_of_ne hut]
      exact h.answer u

/-- A move that leaves the lock alone. -/
lemma goto {pc : SleepPc} (howns : pc.owns = (pcs t).pc.owns)
    (hnamed : pc.named = true → (pcs t).pc.named = true) (hans : pc.answer) :
    OwnerInv x (update pcs t ((pcs t).goto pc)) :=
  h.move howns rfl (fun _ _ _ => rfl) (fun hn => h.pid t (hnamed hn)) hans

/-- `locked = 1` in `acquiresleep`. -/
lemma set (ht : t < NPROC) (hx : x.locked = 0) :
    OwnerInv { x with locked := 1 } (update pcs t ((pcs t).goto .aPid)) := by
  have hown : ∀ u, (update pcs t ((pcs t).goto .aPid) u).pc.owns = true ↔ u = t := by
    intro u
    by_cases hu : u = t
    · simp [hu]
    · rw [update_of_ne hu, h.not_owns hx u]
      simp [hu]
  refine ⟨Or.inr rfl, ⟨fun _ => ⟨t, ht, (hown t).2 rfl⟩, fun _ => rfl⟩,
    fun u hu => (hown u).1 hu ▸ ht, fun u v hu hv => ((hown u).1 hu).trans ((hown v).1 hv).symm,
    fun u hu => ?_, fun u => ?_⟩
  · -- The only owner has not written its pid yet.
    obtain rfl : u = t := (hown u).1 (SleepPc.named_iff.1 hu).1
    simp at hu
  · by_cases hu : u = t
    · simp [hu]
    · rw [update_of_ne hu]
      exact h.answer u

/-- `locked = 0` in `releasesleep`. -/
lemma clear (ht : (pcs t).pc.owns = true) :
    OwnerInv { x with locked := 0 } (update pcs t ((pcs t).goto .rPid)) := by
  have hown : ∀ u, (update pcs t ((pcs t).goto .rPid) u).pc.owns = false := by
    intro u
    by_cases hu : u = t
    · simp [hu]
    · rw [update_of_ne hu]
      by_contra hne
      exact hu (h.unique u t (by simpa using hne) ht)
  refine ⟨Or.inl rfl, ⟨fun hx => absurd hx (by simp), fun ⟨u, _, hu⟩ => ?_⟩,
    fun u hu => ?_, fun u _ hu => ?_, fun u hu => ?_, fun u => ?_⟩
  · rw [hown u] at hu
    exact absurd hu (by simp)
  · rw [hown u] at hu
    exact absurd hu (by simp)
  · rw [hown u] at hu
    exact absurd hu (by simp)
  · have hu := (SleepPc.named_iff.1 hu).1
    rw [hown u] at hu
    exact absurd hu (by simp)
  · by_cases hu : u = t
    · simp [hu]
    · rw [update_of_ne hu]
      exact h.answer u

/-- The test of `holdingsleep` tells the owner from the others, if the others have other pids and
are not in the critical section. -/
lemma test_iff (hdist : ∀ u, (pcs u).pc.owns = true → (pcs u).me = (pcs t).me → u = t)
    (halone : ∀ u, (pcs u).pc.holds = true → u = t) (ht : (pcs t).pc ≠ .aPid) :
    (x.locked ≠ 0 ∧ x.pid = (pcs t).me) ↔ (pcs t).pc.owns = true := by
  constructor
  · rintro ⟨hx, hpid⟩
    obtain ⟨u, -, hu⟩ := h.owned.1 (h.locked.resolve_left hx)
    have hne : (pcs u).pc ≠ .aPid := fun hp => by
      obtain rfl := halone u (by simp [hp])
      exact ht hp
    obtain rfl := hdist u hu ((h.pid u (SleepPc.named_iff.2 ⟨hu, hne⟩)).symm.trans hpid)
    exact hu
  · intro hown
    have hone := h.owned.2 ⟨t, h.lt t hown, hown⟩
    exact ⟨by omega, h.pid t (SleepPc.named_iff.2 ⟨hown, ht⟩)⟩

/-- The actions of the code. -/
lemma act {pc : SleepPc} (ht : t < NPROC)
    (hact : SleepAct (pcs t).me (pcs t).pc x pc x') (hassert : (pcs t).pc.assert x)
    (hdist : ∀ u, (pcs u).pc.owns = true → (pcs u).me = (pcs t).me → u = t)
    (halone : (pcs t).pc.holds = true → ∀ u, (pcs u).pc.holds = true → u = t) :
    OwnerInv x' (update pcs t ((pcs t).goto pc)) := by
  generalize hpc : (pcs t).pc = l at hact
  cases hact with
  | acquire held | release | holding held | wait held | done held r =>
    exact h.goto (by simp [hpc]) (by simp [hpc]) trivial
  | free held _ hx =>
    have hno := h.not_owns hx t
    exact h.goto (by rw [hno]; rfl) (by simp) trivial
  | set =>
    rw [hpc] at hassert
    exact h.set ht hassert
  | setPid =>
    refine h.move (by simp [hpc]) rfl (fun u hu hn => ?_) (fun _ => rfl) trivial
    exact absurd (h.unique u t (SleepPc.named_iff.1 hn).1 (by simp [hpc])) hu
  | clear => exact h.clear (by simp [hpc])
  | clearPid =>
    rw [hpc] at hassert
    refine h.move (by simp [hpc]) rfl (fun u hu hn => ?_) (by simp) trivial
    have hown := (SleepPc.named_iff.1 hn).1
    rw [h.not_owns hassert u] at hown
    exact absurd hown (by simp)
  | test held =>
    have hiff := h.test_iff hdist (halone (by simp [hpc])) (by simp [hpc])
    refine h.goto (by simp [hpc]) (by simp [hpc]) ?_
    rw [hpc] at hiff
    exact Bool.eq_iff_iff.mpr (by simpa using hiff)

end

end OwnerInv

/-! ## Who sleeps on the lock -/

/-- The annotation of the code for those who sleep in `acquiresleep`. -/
def sleeplockMonitor (chan : ℕ) : Monitor Sleeplock SleepAt where
  chan := chan
  waits := fun _ x => x.locked ≠ 0
  lockInv := fun _ => True
  holds := fun l => l.pc.holds = true
  assert := fun l => l.pc.assert
  owes := fun l => l.pc.owes
  armed := fun l => l.pc.armed chan
  exempt := fun _ => False

lemma sleeplockMonitor_ok_act
    (hl : sleeplockCode chan l = .act f) : (sleeplockMonitor chan).Ok l (.act f) := by
  intro x ch x' l' _ hx
  obtain ⟨-, hact⟩ := sleepAct_of_next hl hx
  obtain ⟨me, pc⟩ := l
  obtain ⟨me', pc'⟩ := l'
  cases hact <;> simp_all [sleeplockMonitor]

lemma sleeplockMonitor_ok (chan : ℕ) (l : SleepAt) :
    (sleeplockMonitor chan).Ok l (sleeplockCode chan l) := by
  obtain ⟨me, pc⟩ := l
  cases pc with
  | out | aTest | aSet | aPid | rClear | rPid | hTest | hReturn =>
    exact sleeplockMonitor_ok_act rfl
  | _ => simp [sleeplockCode, sleeplockMonitor, Monitor.Ok]

/-! ## Runs -/

/-- A lock right after `initsleeplock`, with nobody asleep on it and processes with distinct
pids. -/
structure SleeplockFresh (chan : ℕ) (s : Threads Sleeplock SleepAt) : Prop where
  sh : s.sh = initsleeplock
  lock : s.lock = none
  ctl : ∀ t, s.ctl t = .pc ⟨(s.proc t).pid, .out false⟩
  asleep : ∀ t, (s.proc t).state = .sleeping → (s.proc t).chan ≠ chan
  distinct : ∀ t < NPROC, ∀ u < NPROC, (s.proc t).state ≠ .unused → (s.proc u).state ≠ .unused →
    (s.proc t).pid = (s.proc u).pid → t = u

/-- What holds in every state of the processes around a lock. -/
structure SleeplockInv (chan : ℕ) (s : Threads Sleeplock SleepAt) : Prop where
  wait : (sleeplockMonitor chan).Inv s
  owner : OwnerInv s.sh s.pcs
  me : ∀ t, (s.pcs t).me = (s.proc t).pid
  idle : ∀ t, (s.proc t).state = .unused → (s.pcs t).pc = .out false
  distinct : ∀ t < NPROC, ∀ u < NPROC, (s.proc t).state ≠ .unused → (s.proc u).state ≠ .unused →
    (s.proc t).pid = (s.proc u).pid → t = u

lemma SleeplockFresh.inv {s : Threads Sleeplock SleepAt} (h : SleeplockFresh chan s) :
    SleeplockInv chan s := by
  have hpcs : ∀ t, s.pcs t = ⟨(s.proc t).pid, .out false⟩ := fun t => congrArg Ctl.pos (h.ctl t)
  refine ⟨⟨fun t => ?_, fun _ => trivial, fun t ht => ?_, fun t l c hl hc => ?_,
    fun t c k l hl => ?_, fun t _ hr => ?_⟩, ?_, fun t => by rw [hpcs], fun t _ => by rw [hpcs],
    h.distinct⟩
  · rw [h.ctl t, h.lock]
    simp [sleeplockMonitor]
  · rw [h.lock] at ht
    exact absurd ht (by simp)
  · rw [h.ctl t] at hl
    cases hl
    exact absurd hc (by simp [sleeplockMonitor])
  · rw [h.ctl t] at hl
    exact absurd hl (by simp)
  · rcases hr.2 with hs | ⟨l, hl, ha⟩
    · exact absurd hr.1 (h.asleep t hs)
    · rw [h.ctl t] at hl
      cases hl
      exact absurd ha (by simp [sleeplockMonitor])
  · constructor <;> simp [hpcs, h.sh, initsleeplock]

namespace SleeplockInv

variable {chan : ℕ} {s s' : Threads Sleeplock SleepAt} {a : ThreadStep SleepCall}

/-- A process that is somewhere in the code has a pid of its own. -/
lemma owner_eq (h : SleeplockInv chan s) {t u : ℕ} (ht : t < NPROC)
    (hused : (s.proc t).state ≠ .unused) (hu : (s.pcs u).pc.owns = true)
    (hme : (s.pcs u).me = (s.pcs t).me) : u = t := by
  have huse : (s.proc u).state ≠ .unused := fun hun => by
    rw [h.idle u hun] at hu
    exact absurd hu (by simp)
  rw [h.me, h.me] at hme
  exact h.distinct u (h.owner.lt u hu) t ht huse hused hme

lemma ownerStep (h : SleeplockInv chan s)
    (hs : Threads.step (sleeplockCode chan) s a = some s') :
    OwnerInv s'.sh s'.pcs ∧ ∀ t, (s'.pcs t).me = (s.pcs t).me := by
  have hme : ∀ {t : ℕ} {l' : SleepAt}, l' = (s.pcs t).goto l'.pc →
      ∀ u, (update s.pcs t l' u).me = (s.pcs u).me := fun hl =>
    proj_update SleepAt.me (by rw [hl]; rfl)
  refine (Threads.step_cases hs).rule
    (J := fun x pcs => OwnerInv x pcs ∧ ∀ t, (pcs t).me = (s.pcs t).me) ⟨h.owner, fun _ => rfl⟩ ?_ ?_
  · intro t ht l' hnext
    obtain ⟨hl, howns, hnamed, hans⟩ := sleeplockCode_next hnext
    refine ⟨?_, hme hl⟩
    rw [hl]
    exact h.owner.goto howns hnamed (hans (h.owner.answer t))
  · rintro t ht f ch l' rfl hf hfx
    obtain ⟨hl, hact⟩ := sleepAct_of_next hf hfx
    refine ⟨?_, hme hl⟩
    rw [hl]
    have hrun : (s.proc t).state = .running := by
      rw [Threads.step] at hs
      split at hs
      · exact (‹_ ∧ _ ∧ _›).2.2
      · exact absurd hs (by simp)
    refine h.owner.act ht hact ?_ (fun u => h.owner_eq ht (by simp [hrun])) fun hholds u hu => ?_
    · by_cases hholds : (s.pcs t).pc.holds = true
      · exact h.wait.assert t ((h.wait.lock_iff t).2 hholds)
      · -- Outside the critical section nothing is asserted.
        revert hholds
        generalize (s.pcs t).pc = l
        cases l <;> simp
    · exact Option.some.inj (((h.wait.lock_iff u).2 hu).symm.trans ((h.wait.lock_iff t).2 hholds))

/-- The step lemma of the sleep-lock. -/
theorem step (h : SleeplockInv chan s) (hchan : chan ≠ 0)
    (hs : Threads.step (sleeplockCode chan) s a = some s') : SleeplockInv chan s' := by
  obtain ⟨howner, hme⟩ := h.ownerStep hs
  have hslot := Threads.step_slot hs
  refine ⟨h.wait.step (sleeplockMonitor_ok chan) hchan (fun _ => trivial)
    (fun _ _ _ _ _ hex => hex.elim) hs, howner, fun t => ?_, fun t ht => ?_,
    fun t ht u hu htu huu hpid => ?_⟩
  · rw [hme, h.me, (hslot t).1]
  · obtain ⟨-, hstate, hctl⟩ := hslot t
    rw [Threads.pcs, hctl (hstate.1 ht)]
    exact h.idle t (hstate.1 ht)
  · rw [(hslot t).1, (hslot u).1] at hpid
    exact h.distinct t ht u hu (fun hn => htu ((hslot t).2.1.2 hn))
      (fun hn => huu ((hslot u).2.1.2 hn)) hpid

end SleeplockInv

/-- **Sleep-locks exclude and strand nobody.**  In every state that processes with distinct pids
reach, whatever they call and whoever is killed: at most one of them is between `acquiresleep` and
`releasesleep`; `locked` is 1 if there is one and 0 otherwise, and from the moment it has left
`acquiresleep`'s two stores `pid` is its pid; `holdingsleep` returns true exactly to it; and
whenever the inner spinlock is free nobody sleeps on the lock's channel while `locked` is 0. -/
theorem sleeplock_excludes (chan : ℕ) (hchan : chan ≠ 0) (s₀ s : Threads Sleeplock SleepAt)
    (as : List (ThreadStep SleepCall)) (h₀ : SleeplockFresh chan s₀)
    (hrun : run (Threads.step (sleeplockCode chan)) s₀ as = some s) :
    (∀ t u, (s.pcs t).pc.owns = true → (s.pcs u).pc.owns = true → t = u) ∧
    (s.sh.locked = 0 ∨ s.sh.locked = 1) ∧
    (s.sh.locked = 1 ↔ ∃ t < NPROC, (s.pcs t).pc.owns = true) ∧
    (∀ t, (s.pcs t).pc.owns = true → (s.pcs t).pc ≠ .aPid → s.sh.pid = (s.proc t).pid) ∧
    (∀ t held r, (s.pcs t).pc = .hReturn held r → (r = true ↔ (s.pcs t).pc.owns = true)) ∧
    (s.lock = none → s.sh.locked = 0 →
      ∀ t < NPROC, ¬((s.proc t).state = .sleeping ∧ (s.proc t).chan = chan)) := by
  have h : SleeplockInv chan s :=
    run_invariant (fun _ _ _ hu hstep => hu.step hchan hstep) h₀.inv hrun
  refine ⟨h.owner.unique, h.owner.locked, h.owner.owned, fun t ht hne => ?_,
    fun t held r hpc => ?_, fun hfree hx t ht ⟨hs, hc⟩ => ?_⟩
  · rw [h.owner.pid t (SleepPc.named_iff.2 ⟨ht, hne⟩), h.me]
  · have hans := h.owner.answer t
    rw [hpc] at hans ⊢
    rw [show r = held from hans]
    rfl
  · exact h.wait.waits_of_sleeping hfree ht hs hc hx

/-- Running processes around a fresh lock, with their slots' numbers as pids. -/
def freshSleeplock : Threads Sleeplock SleepAt where
  sh := initsleeplock
  lock := none
  proc := fun t => { state := .running, pid := t }
  ctl := fun t => .pc ⟨t, .out false⟩
  panicked := none

lemma freshSleeplock_fresh : SleeplockFresh 0x80010000 freshSleeplock where
  sh := rfl
  lock := rfl
  ctl := fun _ => rfl
  asleep := fun _ h => absurd h (by simp [freshSleeplock])
  distinct := fun t _ u _ _ _ h => by exact_mod_cast (show (t : ℤ) = u from h)

/-- Process 0 takes the lock, process 1 goes to sleep on it and is killed, and process 0 asks
whether it holds the lock. -/
theorem sleeplock_excludes_kill : ∃ s,
    run (Threads.step (sleeplockCode 0x80010000)) freshSleeplock
      (.run 0 .acquiresleep :: List.replicate 5 (.run 0 .go) ++
        .run 1 .acquiresleep :: List.replicate 5 (.run 1 .go) ++
        .kkill 1 :: .run 0 .holdingsleep :: List.replicate 3 (.run 0 .go)) = some s ∧
    (s.proc 1).state = .runnable ∧ (s.pcs 0).pc = .hReturn true true ∧ s.sh.locked = 1 ∧
    s.sh.pid = (s.proc 0).pid ∧ (s.pcs 1).pc.owns = false := by
  set as : List (ThreadStep SleepCall) := .run 0 .acquiresleep :: List.replicate 5 (.run 0 .go) ++
    .run 1 .acquiresleep :: List.replicate 5 (.run 1 .go) ++
    .kkill 1 :: .run 0 .holdingsleep :: List.replicate 3 (.run 0 .go)
  have hrun := run_eq_some_after (Threads.step (sleeplockCode 0x80010000)) freshSleeplock as
    (by decide +kernel)
  have hpc : ((after (Threads.step (sleeplockCode 0x80010000)) freshSleeplock as).pcs 0).pc
      = .hReturn true true := by decide +kernel
  obtain ⟨hunique, -, hiff, hpid, -⟩ :=
    sleeplock_excludes 0x80010000 (by decide) freshSleeplock _ as freshSleeplock_fresh hrun
  refine ⟨_, hrun, by decide +kernel, hpc, hiff.2 ⟨0, by decide, by rw [hpc]; rfl⟩,
    hpid 0 (by rw [hpc]; rfl) (by rw [hpc]; decide), ?_⟩
  by_contra h
  exact absurd (hunique 0 1 (by rw [hpc]; rfl) (by simpa using h)) (by decide)

end Xv6
