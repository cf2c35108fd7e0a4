import Xv6.Virtio.Step

/-!
# The request protocol

Callers of `virtio_disk_rw` sleep on `&disk.free[0]` while fewer than three descriptors are free and
on their buffer while its `disk` flag is set, so the code is an instance of the waiting rule for
kernel threads, once for the table of descriptors and once for every buffer.  With the invariant of
the rings this gives the protocol (`virtio_protocol`).
-/

namespace Xv6

namespace Virtio

open Function List

/-! ## The number of free descriptors -/

variable {i b n : ℕ} {x x' : Disk} {l l' : Pc} {a : Chans} {f : Disk → Choice → Outcome Disk Pc}
  {s s' : Threads Disk Pc} {e : ThreadStep Choice}

lemma length_filter_update {f : ℕ → Bool} (hf : f i = false) :
    ∀ {l : List ℕ}, l.Nodup → i ∈ l →
      (l.filter (update f i true)).length = (l.filter f).length + 1
  | [], _, hi => absurd hi (by simp)
  | j :: l, hl, hi => by
    rw [nodup_cons] at hl
    by_cases hji : j = i
    · subst hji
      have heq : l.filter (update f j true) = l.filter f :=
        filter_congr fun k hk => update_of_ne (by rintro rfl; exact hl.1 hk) ..
      rw [filter_cons_of_pos (by simp), filter_cons_of_neg (by simp [hf]), heq,
        length_cons]
    · have hil : i ∈ l := (mem_cons.mp hi).resolve_left (Ne.symm hji)
      have ih := length_filter_update hf hl.2 hil
      rw [filter_cons, filter_cons, update_of_ne hji]
      split
      · rw [length_cons, length_cons, ih]
      · exact ih

lemma Disk.nfree_alloc (h : x.allocDesc = some (i, x')) :
    x'.nfree ≤ x.nfree := by
  obtain ⟨-, -, rfl⟩ := Disk.allocDesc_some h
  refine (monotone_filter_right (range NUM) fun j hj => ?_).length_le
  dsimp only at hj
  by_cases hji : j = i
  · rw [hji, update_self] at hj
    exact absurd hj (by simp)
  · rwa [update_of_ne hji] at hj

lemma Disk.nfree_eq_zero (h : x.allocDesc = none) : x.nfree = 0 := by
  rw [Disk.nfree, length_eq_zero_iff, filter_eq_nil_iff]
  intro i hi
  rw [Disk.allocDesc_none h (mem_range.mp hi)]
  exact Bool.false_ne_true

lemma Disk.nfree_free (h : x.freeDesc i = .ok x') :
    x'.nfree = x.nfree + 1 := by
  obtain ⟨hi, hf, rfl⟩ := Disk.freeDesc_ok h
  exact length_filter_update hf nodup_range (mem_range.mpr hi)

/-! ## Who sleeps -/

namespace Pc

/-- The channel registered when the thread goes to sleep. -/
@[simp] def armed (a : Chans) : Pc → Option ℕ
  | .rUnlock .. | .rSleep .. => some a.free
  | .wUnlock r | .wSleep r => some (a.buf r.b)
  | _ => none

/-- What the holder of the lock knows of the free descriptors. -/
@[simp] def short : Pc → Disk → Prop
  | .rAlloc _ _ idx, _ => idx.length ≤ 2
  | .rUndo _ _ js, x | .rUndoWake _ _ js, x => x.nfree + js.length < 3
  | .rPrepare .., x => x.nfree < 3
  | _, _ => True

/-- Where those that wait for descriptors still have to be woken. -/
@[simp] def freed : Pc → Prop
  | .rUndoWake .. | .fWake .. => True
  | _ => False

/-- What the holder of the lock knows of the flag of its buffer. -/
@[simp] def busy : Pc → Disk → Prop
  | .wPrepare r, x => (x.buf r.b).disk = 1
  | _, _ => True

/-- Where the caller that waits for a buffer still has to be woken. -/
@[simp] def finished (b : ℕ) : Pc → Prop
  | .iWake b' => b' = b
  | _ => False

end Pc

/-- The annotation for those who sleep on `&disk.free[0]`. -/
def freeMonitor (a : Chans) : Monitor Disk Pc where
  chan := a.free
  waits := fun _ x => x.nfree < 3
  lockInv := fun _ => True
  holds := fun l => l.holds = true
  assert := Pc.short
  owes := Pc.freed
  armed := Pc.armed a
  exempt := fun _ => False

/-- The annotation for those who sleep on the buffer `b`. -/
def bufMonitor (a : Chans) (b : ℕ) : Monitor Disk Pc where
  chan := a.buf b
  waits := fun _ x => (x.buf b).disk = 1
  lockInv := fun _ => True
  holds := fun l => l.holds = true
  assert := Pc.busy
  owes := Pc.finished b
  armed := Pc.armed a
  exempt := fun _ => False

section

variable (h : Act l x l' x')
include h

/-- Without the lock nobody touches the free descriptors or the flags. -/
lemma Act.of_not_holds (hl : l.holds = false) : x'.free = x.free ∧ x'.buf = x.buf := by
  cases h with
  | call | ret | irq | consume => exact ⟨rfl, rfl⟩
  | complete id _ hid =>
    obtain ⟨-, hfree, hbuf, -⟩ := x.complete_fields id
    exact ⟨hfree, hbuf⟩
  | _ => cases hl

lemma Act.holds (a : Chans) : l'.armed a = none ∧ l'.holds = l.holds := by
  cases h <;> exact ⟨rfl, rfl⟩

/-- The callers that wait for descriptors stay short of them, or are going to be woken. -/
lemma Act.short (hl : l.short x) :
    l'.short x' ∧ (x.nfree < 3 ∨ l.freed → x'.nfree < 3 ∨ l'.freed) := by
  cases h with
  | fail b write idx _ hx =>
    rw [Pc.short, Disk.nfree_eq_zero hx]
    have : idx.length ≤ 2 := hl
    exact ⟨by omega, id⟩
  | alloc b write idx i _ _ hlen hx =>
    have := Disk.nfree_alloc hx
    refine ⟨?_, fun hw => Or.inl ?_⟩
    · rw [Pc.short, length_append, length_singleton]
      omega
    · have := hw.resolve_right id
      omega
  | alloc3 b write i0 i1 l i _ _ hx =>
    have := Disk.nfree_alloc hx
    refine ⟨trivial, fun hw => Or.inl ?_⟩
    have := hw.resolve_right id
    omega
  | undone => exact ⟨hl, id⟩
  | undo b write j js _ _ hx =>
    refine ⟨?_, fun _ => Or.inr trivial⟩
    have : x.nfree + (js.length + 1) < 3 := hl
    rw [Pc.short, Disk.nfree_free hx]
    omega
  | freeChain r i _ _ hx =>
    refine ⟨?_, fun _ => Or.inr trivial⟩
    split <;> trivial
  | complete i _ hid =>
    obtain ⟨-, hfree, -⟩ := x.complete_fields i
    refine ⟨trivial, fun hw => Or.inl ?_⟩
    rw [Disk.nfree, hfree]
    exact hw.resolve_right id
  | _ => exact ⟨trivial, id⟩

/-- The caller that waits for a buffer goes on to wait, or is going to be woken. -/
lemma Act.busy (b : ℕ) :
    l'.busy x' ∧ ((x.buf b).disk = 1 ∨ l.finished b → (x'.buf b).disk = 1 ∨ l'.finished b) := by
  cases h with
  | wait r _ hx => exact ⟨hx, id⟩
  | info b' c =>
    refine ⟨trivial, fun hw => Or.inl ?_⟩
    change (update x.buf b' _ b).disk = 1
    by_cases hb : b = b'
    · rw [hb, update_self]
    · rw [update_of_ne hb]
      exact hw.resolve_right id
  | read b' _ hb' =>
    refine ⟨trivial, fun hw => ?_⟩
    by_cases hb : b' = b
    · exact Or.inr hb
    · refine Or.inl ?_
      change (update x.buf b' _ b).disk = 1
      rw [update_of_ne (Ne.symm hb)]
      exact hw.resolve_right id
  | alloc b write idx i _ _ hlen hx | alloc3 b write i0 i1 l i _ _ hx =>
    obtain ⟨-, -, rfl⟩ := Disk.allocDesc_some hx
    exact ⟨trivial, id⟩
  | undo b write j js _ _ hx | freeChain r i _ _ hx =>
    obtain ⟨-, -, rfl⟩ := Disk.freeDesc_ok hx
    exact ⟨trivial, id⟩
  | complete i _ hid =>
    obtain ⟨-, -, hbuf, -⟩ := x.complete_fields i
    refine ⟨trivial, fun hw => Or.inl ?_⟩
    rw [hbuf]
    exact hw.resolve_right id
  | _ => exact ⟨trivial, id⟩

end

lemma freeMonitor_ok_act (hl : code a l = .act f) : (freeMonitor a).Ok l (.act f) := by
  intro x ch x' l' _ hx
  have hact := act_of_next hl hx
  obtain ⟨harmed, hholds⟩ := hact.holds a
  refine ⟨harmed, by simp only [freeMonitor, hholds], fun _ has => ?_, fun hout => ?_⟩
  · obtain ⟨has', hw⟩ := hact.short has
    exact ⟨has', fun _ => hw⟩
  · obtain ⟨hfree, -⟩ := hact.of_not_holds (by simpa [freeMonitor] using hout)
    have hn : x'.nfree = x.nfree := by rw [Disk.nfree, hfree, Disk.nfree]
    refine ⟨id, fun m hm => ?_, fun m hm => by simpa [freeMonitor, hn] using hm⟩
    cases m with
    | rUndo | rUndoWake | rPrepare => simpa [freeMonitor, hn] using hm
    | _ => exact hm

lemma freeMonitor_ok (a : Chans) (l : Pc) : (freeMonitor a).Ok l (code a l) := by
  cases l with
  | rUndo b write js => cases js <;> exact freeMonitor_ok_act rfl
  | fWake r o => cases o <;> simp [code, freeMonitor, Monitor.Ok]
  | wPrepare r => simp [code, freeMonitor, Monitor.Ok, a.buf_ne_free r.b]
  | rAcquire | rUndoWake | rPrepare | rUnlock | rSleep | wUnlock | wSleep | wAcquire | rRelease
  | iAcquire | iWake | iRelease => simp [code, freeMonitor, Monitor.Ok]
  | _ => exact freeMonitor_ok_act rfl

lemma bufMonitor_ok_act (hl : code a l = .act f) : (bufMonitor a b).Ok l (.act f) := by
  intro x ch x' l' _ hx
  have hact := act_of_next hl hx
  obtain ⟨harmed, hholds⟩ := hact.holds a
  obtain ⟨hbusy, hw⟩ := hact.busy b
  refine ⟨harmed, by simp only [bufMonitor, hholds], fun _ _ => ⟨hbusy, fun _ => hw⟩,
    fun hout => ?_⟩
  obtain ⟨-, hbuf⟩ := hact.of_not_holds (by simpa [bufMonitor] using hout)
  refine ⟨id, fun m hm => ?_, fun m hm => by simpa [bufMonitor, hbuf] using hm⟩
  cases m with
  | wPrepare => simpa [bufMonitor, hbuf] using hm
  | _ => exact hm

lemma bufMonitor_ok (a : Chans) (b : ℕ) (l : Pc) : (bufMonitor a b).Ok l (code a l) := by
  cases l with
  | rUndo b' write js => cases js <;> exact bufMonitor_ok_act rfl
  | fWake r o => cases o <;> simp [code, bufMonitor, Monitor.Ok]
  | rPrepare => simp [code, bufMonitor, Monitor.Ok, (a.buf_ne_free b).symm]
  | wPrepare r =>
    refine ⟨Iff.rfl, rfl, fun _ _ => trivial, id, fun hc => ⟨rfl, fun x hx => ?_⟩⟩
    obtain rfl := a.buf_inj _ _ hc
    exact hx
  | iWake b' =>
    refine ⟨Iff.rfl, rfl, fun _ _ => trivial, fun hb => Or.inl ?_⟩
    rw [show b' = b from hb]
    rfl
  | rAcquire | rUndoWake | rUnlock | rSleep | wUnlock | wSleep | wAcquire | rRelease
  | iAcquire | iRelease => simp [code, bufMonitor, Monitor.Ok]
  | _ => exact bufMonitor_ok_act rfl

/-! ## Runs -/

/-- The driver after `virtio_disk_init`, with the buffers `buf`. -/
def Disk.init (buf : ℕ → Buf) : Disk := { buf := buf }

/-- The system after `virtio_disk_init`: no process is in the driver, the other threads are handlers
and the device, and nobody sleeps on the channels of the driver. -/
structure Booted (a : Chans) (s : Threads Disk Pc) : Prop where
  sh : ∃ buf : ℕ → Buf, (∀ b, (buf b).disk = 0) ∧ s.sh = Disk.init buf
  lock : s.lock = none
  panicked : s.panicked = none
  ctl : ∀ t, s.ctl t = .pc .out ∨ s.ctl t = .pc .iOut ∨ s.ctl t = .pc .dev
  asleep : ∀ t, (s.proc t).state = .sleeping →
    (s.proc t).chan ≠ a.free ∧ ∀ b, (s.proc t).chan ≠ a.buf b

/-- What holds in every state of the system. -/
structure Ok (a : Chans) (s : Threads Disk Pc) : Prop where
  inv : Inv s.sh s.pcs
  free : (freeMonitor a).Inv s
  buf : ∀ b, (bufMonitor a b).Inv s
  panicked : s.panicked = none

/-- A system in which nobody is in the critical section or goes to sleep. -/
lemma monitor_inv_of_idle {M : Monitor Disk Pc} (hlock : s.lock = none)
    (hctl : ∀ t, ∃ l, s.ctl t = .pc l ∧ ¬M.holds l ∧ M.armed l = none) (hinv : ∀ x, M.lockInv x)
    (hasleep : ∀ t, (s.proc t).state = .sleeping → (s.proc t).chan ≠ M.chan) : M.Inv s := by
  have harmed : ∀ t l, s.ctl t = .pc l → M.armed l = none := by
    intro t l hl
    obtain ⟨l', hl', -, ha⟩ := hctl t
    cases hl.symm.trans hl'
    exact ha
  refine ⟨fun t => ?_, fun _ => hinv _, fun t ht => ?_, fun t l c hl hc => ?_,
    fun t c k l hl => ?_, fun t _ hr => ?_⟩
  · obtain ⟨l, hl, hholds, -⟩ := hctl t
    rw [hlock, hl]
    exact iff_of_false (by simp) hholds
  · rw [hlock] at ht
    exact absurd ht (by simp)
  · rw [harmed t l hl] at hc
    exact absurd hc (by simp)
  · obtain ⟨l', hl', -⟩ := hctl t
    cases hl.symm.trans hl'
  · rcases hr.2 with hs | ⟨l, hl, ha⟩
    · exact absurd hr.1 (hasleep t hs)
    · rw [harmed t l hl] at ha
      exact absurd ha (by simp)

lemma Booted.ok (h : Booted a s) : Ok a s := by
  obtain ⟨buf, -, hsh⟩ := h.sh
  have hpcs : ∀ t, s.pcs t = .out ∨ s.pcs t = .iOut ∨ s.pcs t = .dev := fun t =>
    (h.ctl t).imp (congrArg Ctl.pos) (Or.imp (congrArg Ctl.pos) (congrArg Ctl.pos))
  have hctl : ∀ t, ∃ l, s.ctl t = .pc l ∧ ¬l.holds = true ∧ l.armed a = none := by
    intro t
    rcases h.ctl t with hl | hl | hl <;> exact ⟨_, hl, by simp, rfl⟩
  have hidle : ∀ t, (s.pcs t).held = [] ∧ (s.pcs t).buf = none ∧ (s.pcs t).waiting = none ∧
      (s.pcs t).mid = false ∧ s.pcs t ≠ .iRead ∧ ∀ x, (s.pcs t).Here x := by
    intro t
    rcases hpcs t with hl | hl | hl <;> rw [hl] <;> exact ⟨rfl, rfl, rfl, rfl, by simp, fun _ => trivial⟩
  refine ⟨⟨⟨fun t => ?_, fun t i hi => ?_, fun t u i hi => ?_, fun i _ hi => ?_⟩,
    ⟨fun t b hb => ?_, fun t u b hb => ?_⟩, fun t => (hidle t).2.2.2.2.2 _, ?_, [], [], 0, ?_⟩,
    monitor_inv_of_idle h.lock hctl (fun _ => trivial) fun t ht => (h.asleep t ht).1,
    fun b => monitor_inv_of_idle h.lock hctl (fun _ => trivial) fun t ht => (h.asleep t ht).2 b,
    h.panicked⟩
  · rw [(hidle t).1]
    exact nodup_nil
  · rw [(hidle t).1] at hi
    exact absurd hi (by simp)
  · rw [(hidle t).1] at hi
    exact absurd hi (by simp)
  · rw [hsh] at hi
    exact absurd hi (by simp [Disk.init])
  · rw [(hidle t).2.1] at hb
    exact absurd hb (by simp)
  · rw [(hidle t).2.1] at hb
    exact absurd hb (by simp)
  · rw [hsh]
    simp [Disk.init]
  · rw [hsh]
    refine ⟨Holds.nil, rfl, Holds.nil, rfl, by simp [Disk.init], by simp [Disk.init], by simp,
      fun t r hr => ?_, ⟨Nat.le_refl _, Or.inl ⟨rfl, fun t => (hidle t).2.2.2.1⟩⟩,
      fun t ht => absurd ht (hidle t).2.2.2.2.1⟩
    rw [(hidle t).2.2.1] at hr
    exact absurd hr (by simp)

/-- Nobody panics: the lock is released by its holder, no channel is null, and the driver finds what
it expects. -/
lemma Ok.not_panicked (h : Ok a s) (hn : NPROC ≤ n) (hs : Threads.stepOn n (code a) s e = some s') :
    s'.panicked = none := by
  obtain ⟨hp, hacts⟩ := Threads.acts_of_stepOn hs hn
  have hpos : ∀ {t l}, s.ctl t = .pc l → s.pcs t = l := fun hpc => congrArg Ctl.pos hpc
  cases hacts with
  | badRelease t ch l l' ht hpc hi hlock =>
    have hok := freeMonitor_ok a l
    rw [hi] at hok
    refine absurd ((h.free.lock_iff t).2 ?_) hlock
    rw [hpc]
    exact hok.1
  | zeroChan t ch l l' ht hpc hi =>
    cases l with
    | rPrepare =>
      injection hi with hc _
      exact absurd hc a.free_ne_zero
    | wPrepare r =>
      injection hi with hc _
      exact absurd hc (a.buf_ne_zero r.b)
    | rUndo b write js => cases js <;> cases hi
    | fWake r o => cases o <;> cases hi
    | _ => cases hi
  | panic t ch l f msg ht hpc hi hf =>
    rw [← hpos hpc] at hi
    exact absurd hf (h.inv.not_panic hi)
  | _ => exact hp

/-- The step lemma of the protocol. -/
theorem Ok.step
    (h : Ok a s) (hn : NPROC ≤ n) (hs : Threads.stepOn n (code a) s e = some s') : Ok a s' := by
  have hlock : ∀ t, s.lock = some t ↔ (s.pcs t).holds = true := h.free.lock_iff
  have halone : ∀ t, (s.pcs t).holds = true → ∀ u, (s.pcs u).holds = true → u = t := fun t ht u hu =>
    Option.some.inj (((hlock u).2 hu).symm.trans ((hlock t).2 ht))
  refine ⟨?_, h.free.stepOn (freeMonitor_ok a) a.free_ne_zero (fun _ => trivial)
      (fun _ _ _ _ _ hex => hex.elim) hn hs, fun b => (h.buf b).stepOn (bufMonitor_ok a b)
      (a.buf_ne_zero b) (fun _ => trivial) (fun _ _ _ _ _ hex => hex.elim) hn hs,
    h.not_panicked hn hs⟩
  exact (Threads.stepOn_cases hn hs).rule h.inv (fun _ _ _ hnext => h.inv.next_instr hnext)
    fun t _ _ _ _ _ hf hfx => h.inv.act (act_of_next hf hfx) (halone t)

/-! ## The protocol -/

/-- When the lock is free only the waiting callers have descriptors. -/
lemma Pc.waiting_of_held (hl : l.holds = false) (hi : i ∈ l.held) :
    ∃ r, l.waiting = some r ∧ i ∈ r.idx.list := by
  cases l with
  | wSleep r | wAcquire r => exact ⟨r, rfl, hi⟩
  | out | rAcquire | rSleep | rReturn | iOut | iAcquire | dev => exact absurd hi (by simp)
  | _ => cases hl

lemma Pc.held_of_waiting {r : Req} (h : l.waiting = some r) : l.held = r.idx.list := by
  cases l with
  | wTest | wPrepare | wUnlock | wSleep | wAcquire =>
    cases h
    rfl
  | _ => cases h

/-- Every descriptor is free or in the chain of one caller when the lock is free. -/
lemma Ok.free_or_owned (h : Ok a s) (hlock : s.lock = none)
    (hi : i < NUM) : (s.sh.free i = true ∧ ∀ t, i ∉ (s.pcs t).held) ∨
      (s.sh.free i = false ∧ ∃! t, ∃ r, (s.pcs t).waiting = some r ∧ i ∈ r.idx.list) := by
  cases hf : s.sh.free i with
  | true =>
    refine Or.inl ⟨rfl, fun t ht => ?_⟩
    rw [(h.inv.descs.used t i ht).2] at hf
    exact absurd hf (by simp)
  | false =>
    obtain ⟨t, ht⟩ := h.inv.descs.cover i hi hf
    have hholds : (s.pcs t).holds = false := by
      by_contra hh
      have hl := (h.free.lock_iff t).2 (show (s.pcs t).holds = true by simpa using hh)
      rw [hlock] at hl
      exact absurd hl (by simp)
    refine Or.inr ⟨rfl, t, Pc.waiting_of_held hholds ht, fun u hu => ?_⟩
    obtain ⟨r, hr, hmem⟩ := hu
    exact h.inv.descs.disj u t i (by rw [Pc.held_of_waiting hr]; exact hmem) ht

/-- The slot of the avail ring that is written next is not one that the device has still to take. -/
lemma Ok.slot_ne (h : Ok a s) {t : ℕ} {c : Idx}
    (ht : s.pcs t = .rRing b c) {j : ℕ} (hj : j < (s.sh.avail.idx - s.sh.dev.idx).toNat) :
    (s.sh.dev.idx.toNat + j) % NUM ≠ s.sh.avail.idx.toNat % NUM := by
  obtain ⟨A, U, k, hr⟩ := h.inv.rings
  have hroom := hr.room h.inv.descs (t := t) (i := c.i0) (by rw [ht]; simp) (by rw [ht]; rfl)
  have hlen : (s.sh.avail.idx - s.sh.dev.idx).toNat = A.length := by
    rw [hr.availIdx, BitVec.add_comm, BitVec.add_sub_cancel, BitVec.toNat_ofNat]
    exact Nat.mod_eq_of_lt (by have : NUM < 2 ^ 16 := by decide
                               omega)
  rw [hr.availIdx, Holds.slot_add NUM_dvd]
  exact RingFifo.mod_ne (a := s.sh.dev.idx.toNat) (by omega) (by omega) (by omega)

/-- **The virtio request protocol.**  In every state that any processes calling `virtio_disk_rw`, any
interrupt handlers and the device reach, with indices that wrap:

* the descriptors of the calls are distinct and not marked free, and when `vdisk_lock` is free each
  descriptor is free or in the chain of exactly one call;
* the slot of the avail ring that is going to be written is not one that the device has yet to take;
* a handler finds, with status 0, the buffer of a call that waits for it and whose request has
  completed, and clears the flag of that buffer only;
* a call returns only when its own request, whose number was new when it was submitted, has
  completed;
* nothing panics;
* when `vdisk_lock` is free nobody sleeps on `&disk.free[0]` while three descriptors are free, or on
  a buffer whose `disk` flag is 0. -/
theorem virtio_protocol (a : Chans) (n : ℕ) (hn : NPROC ≤ n) (s₀ s : Threads Disk Pc)
    (es : List (ThreadStep Choice)) (h₀ : Booted a s₀)
    (hrun : run (Threads.stepOn n (code a)) s₀ es = some s) :
    (∀ t, (s.pcs t).held.Nodup ∧ ∀ i ∈ (s.pcs t).held, i < NUM ∧ s.sh.free i = false) ∧
    (∀ t u, t ≠ u → List.Disjoint (s.pcs t).held (s.pcs u).held) ∧
    (s.lock = none → ∀ i < NUM, (s.sh.free i = true ∧ ∀ t, i ∉ (s.pcs t).held) ∨
      (s.sh.free i = false ∧ ∃! t, ∃ r, (s.pcs t).waiting = some r ∧ i ∈ r.idx.list)) ∧
    (∀ t b c, s.pcs t = .rRing b c → ∀ j < (s.sh.avail.idx - s.sh.dev.idx).toNat,
      (s.sh.dev.idx.toNat + j) % NUM ≠ s.sh.avail.idx.toNat % NUM) ∧
    (∀ t, s.pcs t = .iRead → ∃ u r, (s.pcs u).waiting = some r ∧ r.idx.i0 = s.sh.usedId ∧
      (s.sh.info s.sh.usedId).b = some r.b ∧ r.n ∈ s.sh.completed ∧
      intr s.sh = .next (s.sh.setDisk r.b 0) (.iWake r.b)) ∧
    (∀ m ∈ s.sh.completed, m < s.sh.nsub) ∧
    (∀ t r, s.pcs t = .rReturn r → r.n ∈ s.sh.completed) ∧
    s.panicked = none ∧
    (s.lock = none →
      (3 ≤ s.sh.nfree → ∀ t < NPROC, ¬((s.proc t).state = .sleeping ∧ (s.proc t).chan = a.free)) ∧
      ∀ b, (s.sh.buf b).disk = 0 →
        ∀ t < NPROC, ¬((s.proc t).state = .sleeping ∧ (s.proc t).chan = a.buf b)) := by
  have h : Ok a s := run_invariant (fun _ _ _ hu hstep => hu.step hn hstep) h₀.ok hrun
  refine ⟨fun t => ⟨h.inv.descs.nodup t, h.inv.descs.used t⟩, fun t u htu i ht hu => ?_,
    fun hlock i hi => h.free_or_owned hlock hi, fun t b c ht j hj => h.slot_ne ht hj,
    fun t ht => ?_, h.inv.fresh, fun t r ht => ?_, h.panicked, fun hlock => ⟨fun h3 t ht hs => ?_,
    fun b hb t ht hs => ?_⟩⟩
  · exact htu (h.inv.descs.disj t u i ht hu)
  · obtain ⟨u, r, hw, hid, hb, hstatus, -, hn⟩ := h.inv.found ht
    refine ⟨u, r, hw, hid, hb, hn, ?_⟩
    rw [intr, if_neg (not_not.mpr hstatus), hb]
  · have hhere := h.inv.here t
    rw [ht] at hhere
    exact hhere
  · have hw : s.sh.nfree < 3 := h.free.waits_of_sleeping hlock ht hs.1 hs.2
    omega
  · have hw : (s.sh.buf b).disk = 1 := (h.buf b).waits_of_sleeping hlock ht hs.1 hs.2
    omega

/-- Running processes, one handler and the device. -/
def freshDisk : Threads Disk Pc where
  sh := Disk.init fun b => { blockno := b }
  lock := none
  proc := fun _ => { state := .running }
  ctl := fun t => .pc (if t < NPROC then .out else if t = NPROC then .iOut else .dev)
  panicked := none

/-- Addresses for the channels. -/
def someChans : Chans where
  free := 1
  buf := fun b => b + 2
  free_ne_zero := by decide
  buf_ne_zero := by simp
  buf_ne_free := by simp
  buf_inj := by simp

lemma freshDisk_booted : Booted someChans freshDisk where
  sh := ⟨fun b => { blockno := b }, fun _ => rfl, rfl⟩
  lock := rfl
  panicked := rfl
  ctl := fun t => by
    dsimp only [freshDisk]
    split
    · exact Or.inl rfl
    · split
      · exact Or.inr (Or.inl rfl)
      · exact Or.inr (Or.inr rfl)
  asleep := fun _ h => absurd h (by simp [freshDisk])

/-- Processes 0 and 1 read and write a block and go to sleep, the device completes the second request
first, and the handler reads the used ring. -/
def twoRequests : List (ThreadStep Choice) :=
  .run 0 (.rw 7 false) :: List.replicate 12 (.run 0 .go) ++
    .run 1 (.rw 8 true) :: List.replicate 12 (.run 1 .go) ++
    [.run (NPROC + 1) .consume, .run (NPROC + 1) .consume, .run (NPROC + 1) (.complete 3),
      .run (NPROC + 1) (.complete 0)] ++ List.replicate 3 (.run NPROC .go)

/-- The handler finds the request of process 1. -/
theorem virtio_protocol_twoRequests : ∃ s,
    run (Threads.stepOn (NPROC + 2) (code someChans)) freshDisk twoRequests = some s ∧
    (s.proc 0).state = .sleeping ∧ (s.proc 1).state = .sleeping ∧ s.pcs NPROC = .iRead ∧
    s.sh.usedId = 3 ∧ ∃ u r, (s.pcs u).waiting = some r ∧ r.idx.i0 = s.sh.usedId ∧
      intr s.sh = .next (s.sh.setDisk r.b 0) (.iWake r.b) := by
  have h : (run (Threads.stepOn (NPROC + 2) (code someChans)) freshDisk twoRequests).map
      (fun s => decide ((s.proc 0).state = .sleeping ∧ (s.proc 1).state = .sleeping ∧
        s.pcs NPROC = .iRead ∧ s.sh.usedId = 3)) = some true := by
    decide +kernel
  obtain ⟨s, hrun, hs⟩ := Option.map_eq_some_iff.mp h
  obtain ⟨h₀, h₁, hpc, hid⟩ := of_decide_eq_true hs
  obtain ⟨-, -, -, -, hread, -⟩ :=
    virtio_protocol someChans (NPROC + 2) (by omega) freshDisk s twoRequests freshDisk_booted hrun
  obtain ⟨u, r, hw, hi0, -, -, hintr⟩ := hread NPROC hpc
  exact ⟨s, hrun, h₀, h₁, hpc, hid, u, r, hw, hi0, hintr⟩

end Virtio

end Xv6
