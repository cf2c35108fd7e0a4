import Xv6.Bio.System
import Xv6.Lib.Account

/-!
# The buffer cache: references

Every reference to a buffer is counted in `b->refcnt`: those of the processes that hold it, wait for
it or are about to give it up, those they have pinned, and the one of the log for a block that is
listed and not yet installed.  So `bget` never recycles a buffer that anybody still uses, and at most
one buffer holds a given block (`CacheInv`).  What the log has pinned follows from how far its
commit has come (`CommitInv`).
-/

namespace Xv6

open Finset Function

/-- The buffer a call is about. -/
@[simp] def Call.buf : Call → Option ℕ
  | .none => Option.none
  | .locking _ _ i | .reading _ _ i | .dropping i => some i

/-- The block that a `bread` has asked for, and the buffer that `bget` has found. -/
@[simp] def Call.asked : Call → Option (ℕ × ℕ × ℕ)
  | .locking d b i | .reading d b i => some (d, b, i)
  | _ => Option.none

/-- A `bread` that has the sleep-lock. -/
@[simp] def Call.locked : Call → Option ℕ
  | .reading _ _ i => some i
  | _ => Option.none

/-- How many references a process has to buffer `i`. -/
def Client.refs (c : Client) (i : ℕ) : ℕ :=
  c.held.count i + (if c.call.buf = some i then 1 else 0) + c.pins.count i

/-- The process has not given up buffer `i` yet. -/
def Client.Owns (c : Client) (i : ℕ) : Prop := i ∈ c.held ∨ c.call = .dropping i

namespace BufSys

/-- The reference of the log to buffer `i`. -/
def logRef (s : BufSys) (i : ℕ) : ℕ :=
  if (s.bc i).dev = s.dev ∧ (s.bc i).blockno ∈ s.logPins then 1 else 0

/-- The references of all processes to buffer `i`. -/
def procRefs (s : BufSys) (i : ℕ) : ℕ := ∑ p ∈ range NPROC, (s.client p).refs i

lemma procRefs_update {s s' : BufSys} {p : ℕ} (hp : p < NPROC) {c : Client}
    (h : s'.client = update s.client p c) (i : ℕ) :
    s'.procRefs i + (s.client p).refs i = s.procRefs i + c.refs i := by
  unfold procRefs
  rw [h]
  exact sum_update_add (fun c : Client => c.refs i) s.client (mem_range.mpr hp) c

lemma refs_le_procRefs {s : BufSys} {p : ℕ} (hp : p < NPROC) (i : ℕ) :
    (s.client p).refs i ≤ s.procRefs i :=
  single_le_sum (f := fun p => (s.client p).refs i) (fun _ _ => Nat.zero_le _) (mem_range.mpr hp)

end BufSys

/-- How buffers, blocks and references belong together. -/
structure CacheInv (s : BufSys) : Prop where
  order : ∃ l, s.bc.Order l
  dev_ne : s.dev ≠ 0
  uniq : ∀ i j d b, d ≠ 0 → s.bc.Caches i d b → s.bc.Caches j d b → i = j
  outside : ∀ p i, NPROC ≤ p → (s.client p).refs i = 0
  bound : ∀ p i, 0 < (s.client p).refs i → i < NBUF
  ref : ∀ i < NBUF, (s.bc i).refcnt = s.procRefs i + s.logRef i
  lock : ∀ i p, (s.bc i).lock = some p ↔
    i ∈ (s.client p).held ∨ (s.client p).call.locked = some i
  asked : ∀ p d b i, (s.client p).call.asked = some (d, b, i) →
    (s.bc i).dev = d ∧ (s.bc i).blockno = b
  nodup : ∀ p, (s.client p).held.Nodup
  fresh : ∀ p i, (s.client p).call.locked = some i → i ∉ (s.client p).held
  pinned : ∀ b ∈ s.logPins, ∃ i, s.bc.Caches i s.dev b

namespace CacheInv

variable {s s' : BufSys} {p i : ℕ} {c : Client}

lemma refs_pos_of_held (hi : i ∈ c.held) : 0 < c.refs i := by
  have := List.count_pos_iff.mpr hi
  unfold Client.refs
  omega

lemma refs_pos_of_call (hi : c.call.buf = some i) : 0 < c.refs i := by
  unfold Client.refs
  rw [if_pos hi]
  omega

lemma refs_pos_of_pins (hi : i ∈ c.pins) : 0 < c.refs i := by
  have := List.count_pos_iff.mpr hi
  unfold Client.refs
  omega

lemma refs_pos_of_owns (hi : c.Owns i) : 0 < c.refs i := by
  rcases hi with hi | hi
  · exact refs_pos_of_held hi
  · exact refs_pos_of_call (by rw [hi]; rfl)

section

variable (h : CacheInv s)
include h

/-- A buffer to which a process has a reference is in use. -/
lemma refcnt_pos (hr : 0 < (s.client p).refs i) : 0 < (s.bc i).refcnt := by
  have hp : p < NPROC := by
    by_contra hp
    rw [h.outside p i (by omega)] at hr
    exact absurd hr (Nat.lt_irrefl 0)
  have hle := BufSys.refs_le_procRefs (s := s) hp i
  rw [h.ref i (h.bound p i hr)]
  omega

lemma lt_of_held (hi : i ∈ (s.client p).held) : i < NBUF :=
  h.bound p i (refs_pos_of_held hi)

/-- Outside of the calls, a process has the sleep-locks of the buffers it holds. -/
lemma held_of_lock (hcall : (s.client p).call = .none)
    (hl : (s.bc i).lock = some p) : i ∈ (s.client p).held := by
  have hor := (h.lock i p).mp hl
  rw [hcall] at hor
  simpa using hor

/-- A buffer is held by one process at a time. -/
lemma held_unique {q : ℕ} (hp : i ∈ (s.client p).held) (hq : i ∈ (s.client q).held) : p = q := by
  have hp := (h.lock i p).mpr (Or.inl hp)
  have hq := (h.lock i q).mpr (Or.inl hq)
  exact Option.some.inj (hp.symm.trans hq)

/-- What a step of process `p` has to establish, if no buffer is made over to another block. -/
lemma of_client (hp : p < NPROC) (hclient : s'.client = update s.client p c)
    (hdev : s'.dev = s.dev) (horder : ∃ l, s'.bc.Order l)
    (hid : ∀ j < NBUF, (s'.bc j).dev = (s.bc j).dev ∧ (s'.bc j).blockno = (s.bc j).blockno)
    (hbound : ∀ j, 0 < c.refs j → j < NBUF)
    (href : ∀ j < NBUF, (s'.bc j).refcnt + (s.client p).refs j + s.logRef j =
      (s.bc j).refcnt + c.refs j + s'.logRef j)
    (hlock : ∀ j q, q ≠ p → ((s'.bc j).lock = some q ↔ (s.bc j).lock = some q))
    (hlockp : ∀ j, (s'.bc j).lock = some p ↔ j ∈ c.held ∨ c.call.locked = some j)
    (hasked : ∀ d b j, c.call.asked = some (d, b, j) → (s'.bc j).dev = d ∧ (s'.bc j).blockno = b)
    (hnodup : c.held.Nodup) (hfresh : ∀ j, c.call.locked = some j → j ∉ c.held)
    (hpinned : ∀ b ∈ s'.logPins, ∃ j, s.bc.Caches j s.dev b) : CacheInv s' := by
  have hcaches : ∀ {j d b}, s'.bc.Caches j d b ↔ s.bc.Caches j d b := by
    intro j d b
    unfold Bcache.Caches
    refine and_congr_right fun hj => ?_
    rw [(hid j hj).1, (hid j hj).2]
  have hself : s'.client p = c := by rw [hclient, update_self]
  have hother : ∀ q ≠ p, s'.client q = s.client q := fun q hq => by
    rw [hclient, update_of_ne hq]
  refine ⟨horder, hdev ▸ h.dev_ne, fun i j d b hd hi hj => ?_, fun q i hq => ?_, fun q i hq => ?_,
    fun i hi => ?_, fun i q => ?_, fun q d b i hq => ?_, fun q => ?_, fun q i hq => ?_,
    fun b hb => ?_⟩
  · exact h.uniq i j d b hd (hcaches.mp hi) (hcaches.mp hj)
  · rw [hother q (by omega)]
    exact h.outside q i hq
  · by_cases hqp : q = p
    · subst hqp
      rw [hself] at hq
      exact hbound i hq
    · rw [hother q hqp] at hq
      exact h.bound q i hq
  · have hsum := BufSys.procRefs_update hp hclient i
    have hold := h.ref i hi
    have hnew := href i hi
    omega
  · by_cases hqp : q = p
    · subst hqp
      rw [hself]
      exact hlockp i
    · rw [hother q hqp, hlock i q hqp]
      exact h.lock i q
  · by_cases hqp : q = p
    · subst hqp
      rw [hself] at hq
      exact hasked d b i hq
    · rw [hother q hqp] at hq
      have hi : i < NBUF := by
        refine h.bound q i (refs_pos_of_call ?_)
        revert hq
        cases (s.client q).call <;> simp
      rw [(hid i hi).1, (hid i hi).2]
      exact h.asked q d b i hq
  · by_cases hqp : q = p
    · subst hqp
      rw [hself]
      exact hnodup
    · rw [hother q hqp]
      exact h.nodup q
  · by_cases hqp : q = p
    · subst hqp
      rw [hself] at hq ⊢
      exact hfresh i hq
    · rw [hother q hqp] at hq ⊢
      exact h.fresh q i hq
  · obtain ⟨j, hj⟩ := hpinned b hb
    exact ⟨j, hcaches.mpr (hdev.symm ▸ hj)⟩

end

lemma logRef_congr {j : ℕ} (hdev : s'.dev = s.dev) (hpins : s'.logPins = s.logPins)
    (hid : (s'.bc j).dev = (s.bc j).dev ∧ (s'.bc j).blockno = (s.bc j).blockno) :
    s'.logRef j = s.logRef j := by
  rw [BufSys.logRef, BufSys.logRef, hdev, hpins, hid.1, hid.2]

/-- The same, if the process has as many references as before. -/
lemma of_refs (h : CacheInv s) (hp : p < NPROC) (hclient : s'.client = update s.client p c)
    (hdev : s'.dev = s.dev) (hpins : s'.logPins = s.logPins) (horder : ∃ l, s'.bc.Order l)
    (hid : ∀ j, (s'.bc j).dev = (s.bc j).dev ∧ (s'.bc j).blockno = (s.bc j).blockno)
    (hcnt : ∀ j, (s'.bc j).refcnt = (s.bc j).refcnt)
    (hrefs : ∀ j, c.refs j = (s.client p).refs j)
    (hlock : ∀ j q, q ≠ p → ((s'.bc j).lock = some q ↔ (s.bc j).lock = some q))
    (hlockp : ∀ j, (s'.bc j).lock = some p ↔ j ∈ c.held ∨ c.call.locked = some j)
    (hasked : ∀ d b j, c.call.asked = some (d, b, j) → (s.client p).call.asked = some (d, b, j))
    (hnodup : c.held.Nodup) (hfresh : ∀ j, c.call.locked = some j → j ∉ c.held) : CacheInv s' := by
  refine h.of_client hp hclient hdev horder (fun j _ => hid j) (fun j hj => ?_) (fun j _ => ?_)
    hlock hlockp (fun d b j hj => ?_) hnodup hfresh (fun b hb => h.pinned b (hpins ▸ hb))
  · exact h.bound p j (hrefs j ▸ hj)
  · rw [hcnt j, hrefs j, logRef_congr hdev hpins (hid j)]
  · rw [(hid j).1, (hid j).2]
    exact h.asked p d b j (hasked d b j hj)

/-- Two caches that differ in the data only. -/
def Alike (bc bc' : Bcache) : Prop :=
  ∀ j, ∃ v x, bc' j = { bc j with valid := v, data := x }

lemma Alike.refl (bc : Bcache) : Alike bc bc := fun j => ⟨(bc j).valid, (bc j).data, rfl⟩

lemma alike_update {bc : Bcache} {j : ℕ} {v : Bool} {x : Block} :
    Alike bc (update bc j { bc j with valid := v, data := x }) :=
  (forall_update_iff bc fun k y => ∃ v x, y = { bc k with valid := v, data := x }).mpr
    ⟨⟨v, x, rfl⟩, fun k _ => ⟨(bc k).valid, (bc k).data, rfl⟩⟩

lemma Alike.order {bc bc' : Bcache} {l : List ℕ} (h : Alike bc bc') (hl : bc.Order l) :
    bc'.Order l := by
  have hnext : bc'.nextOf = bc.nextOf := by
    funext j
    obtain ⟨v, x, hj⟩ := h j
    rw [Bcache.nextOf, hj]
    rfl
  have hprev : bc'.prevOf = bc.prevOf := by
    funext j
    obtain ⟨v, x, hj⟩ := h j
    rw [Bcache.prevOf, hj]
    rfl
  rw [Bcache.Order, hnext, hprev]
  exact hl

section

variable (h : CacheInv s)
include h

/-- A step that changes data only. -/
lemma of_alike (hp : p < NPROC) (hclient : s'.client = update s.client p c)
    (hdev : s'.dev = s.dev) (hpins : s'.logPins = s.logPins) (hbc : Alike s.bc s'.bc)
    (hc : c.call = (s.client p).call ∧ c.held = (s.client p).held ∧ c.pins = (s.client p).pins) :
    CacheInv s' := by
  obtain ⟨hcall, hheld, hcpins⟩ := hc
  obtain ⟨l, hl⟩ := h.order
  have hsame : ∀ j, (s'.bc j).dev = (s.bc j).dev ∧ (s'.bc j).blockno = (s.bc j).blockno ∧
      (s'.bc j).refcnt = (s.bc j).refcnt ∧ (s'.bc j).lock = (s.bc j).lock := by
    intro j
    obtain ⟨v, x, hj⟩ := hbc j
    rw [hj]
    exact ⟨rfl, rfl, rfl, rfl⟩
  refine h.of_refs hp hclient hdev hpins ⟨l, hbc.order hl⟩
    (fun j => ⟨(hsame j).1, (hsame j).2.1⟩) (fun j => (hsame j).2.2.1) (fun j => ?_)
    (fun j q _ => by rw [(hsame j).2.2.2]) (fun j => ?_) (fun d b j hj => hcall ▸ hj)
    (hheld ▸ h.nodup p) (fun j hj => ?_)
  · rw [Client.refs, Client.refs, hcall, hheld, hcpins]
  · rw [(hsame j).2.2.2, hheld, hcall]
    exact h.lock j p
  · rw [hheld]
    exact h.fresh p j (hcall ▸ hj)

/-- A step that changes the number of references. -/
lemma of_count (hp : p < NPROC) (hclient : s'.client = update s.client p c)
    (hdev : s'.dev = s.dev) (horder : ∃ l, s'.bc.Order l)
    (hid : ∀ j, (s'.bc j).dev = (s.bc j).dev ∧ (s'.bc j).blockno = (s.bc j).blockno ∧
      (s'.bc j).lock = (s.bc j).lock)
    (hheld : c.held = (s.client p).held) (hlocked : c.call.locked = (s.client p).call.locked)
    (hasked : ∀ d b j, c.call.asked = some (d, b, j) → (s.bc j).dev = d ∧ (s.bc j).blockno = b)
    (hbound : ∀ j, 0 < c.refs j → j < NBUF)
    (href : ∀ j < NBUF, (s'.bc j).refcnt + (s.client p).refs j + s.logRef j =
      (s.bc j).refcnt + c.refs j + s'.logRef j)
    (hpinned : ∀ b ∈ s'.logPins, ∃ j, s.bc.Caches j s.dev b) : CacheInv s' := by
  refine h.of_client hp hclient hdev horder (fun j _ => ⟨(hid j).1, (hid j).2.1⟩) hbound href
    (fun j q _ => by rw [(hid j).2.2]) (fun j => ?_) (fun d b j hj => ?_) (hheld ▸ h.nodup p)
    (fun j hj => ?_) hpinned
  · rw [(hid j).2.2, hheld, hlocked]
    exact h.lock j p
  · rw [(hid j).1, (hid j).2.1]
    exact hasked d b j hj
  · rw [hheld]
    exact h.fresh p j (hlocked ▸ hj)

/-- The same, if the log keeps its pins. -/
lemma of_procCount (hp : p < NPROC) (hclient : s'.client = update s.client p c)
    (hdev : s'.dev = s.dev) (hpins : s'.logPins = s.logPins) (horder : ∃ l, s'.bc.Order l)
    (hid : ∀ j, (s'.bc j).dev = (s.bc j).dev ∧ (s'.bc j).blockno = (s.bc j).blockno ∧
      (s'.bc j).lock = (s.bc j).lock)
    (hc : c.held = (s.client p).held ∧ c.call.locked = (s.client p).call.locked)
    (hasked : ∀ d b j, c.call.asked = some (d, b, j) → (s.bc j).dev = d ∧ (s.bc j).blockno = b)
    (hbound : ∀ j, 0 < c.refs j → j < NBUF)
    (href : ∀ j < NBUF, (s'.bc j).refcnt + (s.client p).refs j = (s.bc j).refcnt + c.refs j) :
    CacheInv s' := by
  refine h.of_count hp hclient hdev horder hid hc.1 hc.2 hasked hbound (fun j hj => ?_)
    (hpins ▸ h.pinned)
  rw [logRef_congr hdev hpins ⟨(hid j).1, (hid j).2.1⟩, href j hj]

/-- An unused buffer: nobody refers to it. -/
lemma unused (hi : i < NBUF) (hz : (s.bc i).refcnt = 0) (q : ℕ) :
    (s.client q).refs i = 0 ∧ ¬((s.bc i).dev = s.dev ∧ (s.bc i).blockno ∈ s.logPins) := by
  have href := h.ref i hi
  refine ⟨?_, fun hlog => ?_⟩
  · by_contra hne
    have := h.refcnt_pos (Nat.pos_of_ne_zero hne)
    omega
  · rw [BufSys.logRef, if_pos hlog] at href
    omega

/-- `bget` makes an unused buffer over to a block that no buffer holds. -/
lemma recycle (hp : p < NPROC) {d b : ℕ} (hcall : (s.client p).call = .none)
    (hi : i < NBUF) (hmiss : ∀ j, ¬s.bc.Caches j d b) (hz : (s.bc i).refcnt = 0) :
    CacheInv ((s.setBuf i
      { s.bc i with dev := d, blockno := b, valid := false, refcnt := 1 }).setClient p
        { s.client p with call := .locking d b i }) := by
  set s' := (s.setBuf i
    { s.bc i with dev := d, blockno := b, valid := false, refcnt := 1 }).setClient p
      { s.client p with call := .locking d b i } with hs'
  have hself : s'.client p = { s.client p with call := .locking d b i } := update_self ..
  have hother : ∀ q ≠ p, s'.client q = s.client q := fun q hq => update_of_ne hq ..
  have hbi : s'.bc i = { s.bc i with dev := d, blockno := b, valid := false, refcnt := 1 } :=
    update_self ..
  have hbj : ∀ j ≠ i, s'.bc j = s.bc j := fun j hj => update_of_ne hj ..
  have hlock : ∀ j, (s'.bc j).lock = (s.bc j).lock := by
    intro j
    by_cases hj : j = i
    · rw [hj, hbi]
    · rw [hbj j hj]
  have hrefs : ∀ j, (s'.client p).refs j = (s.client p).refs j + if i = j then 1 else 0 := by
    intro j
    rw [hself]
    simp only [Client.refs, Call.buf, hcall, Option.some.injEq, reduceCtorEq, if_false]
    omega
  refine ⟨?_, h.dev_ne, fun j k e x he hj hk => ?_, fun q j hq => ?_, fun q j hq => ?_,
    fun j hj => ?_, fun j q => ?_, fun q e x j hq => ?_, fun q => ?_, fun q j hq => ?_,
    fun x hx => ?_⟩
  · obtain ⟨l, hl⟩ := h.order
    exact ⟨l, hl.update rfl rfl⟩
  · -- the block was in no buffer
    have hold : ∀ k, k ≠ i → s'.bc.Caches k e x → s.bc.Caches k e x := fun k hk hc => by
      rwa [Bcache.Caches, hbj k hk] at hc
    have hnew : s'.bc.Caches i e x → d = e ∧ b = x := fun hc => by
      rw [Bcache.Caches, hbi] at hc
      exact hc.2
    by_cases hji : j = i <;> by_cases hki : k = i
    · rw [hji, hki]
    · obtain ⟨rfl, rfl⟩ := hnew (hji ▸ hj)
      exact absurd (hold k hki hk) (hmiss k)
    · obtain ⟨rfl, rfl⟩ := hnew (hki ▸ hk)
      exact absurd (hold j hji hj) (hmiss j)
    · exact h.uniq j k e x he (hold j hji hj) (hold k hki hk)
  · rw [hother q (by omega)]
    exact h.outside q j hq
  · by_cases hqp : q = p
    · rw [hqp, hrefs] at hq
      by_cases hij : i = j
      · exact hij ▸ hi
      · rw [if_neg hij] at hq
        exact h.bound p j hq
    · rw [hother q hqp] at hq
      exact h.bound q j hq
  · have hsum : s'.procRefs j + (s.client p).refs j = s.procRefs j + (s'.client p).refs j := by
      rw [hself]
      exact BufSys.procRefs_update hp rfl j
    have hr := hrefs j
    have hold := h.ref j hj
    by_cases hij : j = i
    · subst hij
      have hlog : s'.logRef j = 0 := by
        rw [BufSys.logRef, hbi]
        refine if_neg fun hl => ?_
        obtain ⟨k, hk⟩ := h.pinned b hl.2
        have hd : d = s.dev := hl.1
        exact hmiss k (hd ▸ hk)
      rw [if_pos rfl] at hr
      rw [hlog]
      have hone : (s'.bc j).refcnt = 1 := by rw [hbi]
      omega
    · rw [if_neg (Ne.symm hij)] at hr
      have hlog : s'.logRef j = s.logRef j :=
        logRef_congr rfl rfl (by rw [hbj j hij]; exact ⟨rfl, rfl⟩)
      rw [hlog, hbj j hij]
      omega
  · rw [hlock]
    by_cases hqp : q = p
    · subst hqp
      rw [hself, h.lock j q, hcall]
      simp
    · rw [hother q hqp]
      exact h.lock j q
  · by_cases hqp : q = p
    · subst hqp
      rw [hself] at hq
      obtain ⟨rfl, rfl, rfl⟩ : d = e ∧ b = x ∧ i = j := by simpa using hq
      rw [hbi]
      exact ⟨rfl, rfl⟩
    · rw [hother q hqp] at hq
      have hji : j ≠ i := by
        rintro rfl
        have hpos : 0 < (s.client q).refs j := by
          refine refs_pos_of_call ?_
          revert hq
          cases (s.client q).call <;> simp
        have := (h.unused hi hz q).1
        omega
      rw [hbj j hji]
      exact h.asked q e x j hq
  · by_cases hqp : q = p
    · rw [hqp, hself]
      exact h.nodup p
    · rw [hother q hqp]
      exact h.nodup q
  · by_cases hqp : q = p
    · rw [hqp, hself] at hq
      simp at hq
    · rw [hother q hqp] at hq ⊢
      exact h.fresh q j hq
  · obtain ⟨k, hk⟩ := h.pinned x hx
    have hki : k ≠ i := by
      rintro rfl
      refine (h.unused hi hz p).2 ⟨hk.2.1, ?_⟩
      rw [hk.2.2]
      exact hx
    refine ⟨k, hk.1, ?_⟩
    rw [hbj k hki]
    exact hk.2

end

end CacheInv

/-! ## The commit -/

/-- The buffers that `commit()` has read and not released, each with the number of its block. -/
def BufSys.bufs (s : BufSys) : CommitPc → List (ℕ × ℕ)
  | .wFrom k b | .wDropTo k b | .iHome k b => [(b, s.start + k + 1)]
  | .wCopy k b b' | .wWrite k b b' | .wDropFrom k b b' | .iCopy k b b' | .iWrite k b b'
  | .iUnpin k b b' | .iDropLog k b b' => [(b, s.start + k + 1), (b', s.lh.getD k 0)]
  | .iDropHome k b => [(b, s.lh.getD k 0)]
  | .hFill _ b | .hWrite _ b | .hDrop _ b => [(b, s.start)]
  | _ => []

namespace CommitPc

/-- What the log has pinned, given how far the commit has come. -/
def PinsAt (lh pins : List ℕ) : CommitPc → Prop
  | .user => True
  | .iLog k | .iHome k _ | .iCopy k _ _ | .iWrite k _ _ | .iUnpin k _ _ => pins = lh.drop k
  | .iDropLog k _ _ | .iDropHome k _ => pins = lh.drop (k + 1)
  | .cClear => pins = []
  | .hGet last | .hFill last _ | .hWrite last _ | .hDrop last _ => pins = lh ∧ (last = true → lh = [])
  | .cEnd => pins = lh ∧ lh = []
  | _ => pins = lh

/-- The `tail` of a loop body. -/
def index : CommitPc → Option ℕ
  | .wFrom k _ | .wCopy k _ _ | .wWrite k _ _ | .wDropFrom k _ _ | .wDropTo k _ | .iHome k _
  | .iCopy k _ _ | .iWrite k _ _ | .iUnpin k _ _ | .iDropLog k _ _ | .iDropHome k _ => some k
  | _ => none

variable {lh pins : List ℕ} {t t' : CommitPc} {i : ℕ}

lemma pinsAt_got : (t.got i).PinsAt lh pins ↔ t.PinsAt lh pins := by cases t <;> exact Iff.rfl

lemma PinsAt.dropped (h : t.PinsAt lh pins) : t.dropped.PinsAt lh pins := by
  cases t with
  | hDrop last b =>
    cases last with
    | true => exact ⟨h.1, h.2 rfl⟩
    | false => exact h.1
  | _ => exact h

lemma got_eq_user : t.got i = .user ↔ t = .user := by cases t <;> simp [got]

lemma dropped_eq_user : t.dropped = .user ↔ t = .user := by
  cases t with
  | hDrop last b => cases last <;> simp [CommitPc.dropped]
  | _ => simp [CommitPc.dropped]

lemma index_dropped {k : ℕ} (h : t.dropped.index = some k) : t.index = some k := by
  cases t with
  | hDrop last b => cases last <;> simp [CommitPc.dropped, index] at h
  | _ => first | exact h | simp [CommitPc.dropped, index] at h

/-- Positions that follow each other without a call of `bread` or `brelse` between them. -/
structure Follows (t t' : CommitPc) : Prop where
  user : t' = .user ↔ t = .user
  pins : ∀ lh pins, t.PinsAt lh pins → t'.PinsAt lh pins
  index : t'.index = t.index
  bufs : ∀ s : BufSys, s.bufs t' = s.bufs t

lemma follows_of_stores {s : BufSys} {data : Block} (h : s.stores t = some (i, data, t')) :
    t.Follows t' := by
  cases t <;> simp only [BufSys.stores, Option.some.injEq, Prod.mk.injEq, reduceCtorEq] at h
  all_goals
    obtain ⟨-, -, rfl⟩ := h
    exact ⟨by simp, fun _ _ => id, rfl, fun _ => rfl⟩

lemma follows_of_writes (h : t.writes = some (i, t')) : t.Follows t' := by
  cases t <;> simp only [writes, Option.some.injEq, Prod.mk.injEq, reduceCtorEq] at h
  all_goals
    obtain ⟨-, rfl⟩ := h
    exact ⟨by simp, fun _ _ => id, rfl, fun _ => rfl⟩

end CommitPc

/-- How far the commit has come, and what the log lists and has pinned. -/
structure CommitInv (s : BufSys) : Prop where
  outside : ∀ p, NPROC ≤ p → (s.client p).inOp = false
  committing : ∀ p, (s.client p).task ≠ .user → s.committing = true
  alone : ∀ p q, (s.client p).task ≠ .user → (s.client q).task ≠ .user → p = q
  outstanding : s.outstanding = ∑ p ∈ range NPROC, if (s.client p).inOp then (1 : ℤ) else 0
  quiet : s.committing = true → s.outstanding = 0
  nodup : s.lh.Nodup
  idle : s.committing = false → s.logPins = s.lh
  pins : ∀ p, (s.client p).task.PinsAt s.lh s.logPins
  index : ∀ p k, (s.client p).task.index = some k → k < s.lh.length
  bufs : ∀ p i b, (i, b) ∈ s.bufs (s.client p).task →
    (s.client p).Owns i ∧ (s.bc i).dev = s.dev ∧ (s.bc i).blockno = b
  distinct : ∀ p, ((s.bufs (s.client p).task).map Prod.fst).Nodup
  dropping : ∀ p i, (s.client p).task ≠ .user → (s.client p).call = .dropping i →
    (s.client p).task.releases = some i
  asked : ∀ p d b i, (s.client p).task ≠ .user → (s.client p).call.asked = some (d, b, i) →
    s.request (s.client p).task = some (d, b)

namespace CommitInv

variable {s s' : BufSys} {p : ℕ} {c : Client}

/-- While an operation is open, nobody commits. -/
lemma not_committing (h : CommitInv s) (hout : 1 ≤ s.outstanding) : s.committing = false := by
  by_contra hc
  have := h.quiet (by simpa using hc)
  omega

/-- What a step of process `p` has to establish, if the log stays as it is. -/
lemma of_client (h : CommitInv s) (hi : CacheInv s) (hp : p < NPROC)
    (hclient : s'.client = update s.client p c)
    (hdev : s'.dev = s.dev ∧ s'.start = s.start) (hlh : s'.lh = s.lh) (hpins : s'.logPins = s.logPins)
    (hcomm : s'.committing = s.committing) (hout : s'.outstanding = s.outstanding)
    (hid : ∀ j < NBUF, 0 < (s.bc j).refcnt →
      (s'.bc j).dev = (s.bc j).dev ∧ (s'.bc j).blockno = (s.bc j).blockno)
    (hop : c.inOp = (s.client p).inOp) (huser : c.task = .user ↔ (s.client p).task = .user)
    (hat : c.task.PinsAt s.lh s.logPins) (hindex : ∀ k, c.task.index = some k → k < s.lh.length)
    (hbufs : ∀ i b, (i, b) ∈ s.bufs c.task →
      c.Owns i ∧ (s'.bc i).dev = s.dev ∧ (s'.bc i).blockno = b)
    (hdistinct : ((s.bufs c.task).map Prod.fst).Nodup)
    (hdrop : ∀ i, c.task ≠ .user → c.call = .dropping i → c.task.releases = some i)
    (hasked : ∀ d b i, c.task ≠ .user → c.call.asked = some (d, b, i) →
      s.request c.task = some (d, b)) : CommitInv s' := by
  have hself : s'.client p = c := by rw [hclient, update_self]
  have hother : ∀ q ≠ p, s'.client q = s.client q := fun q hq => by
    rw [hclient, update_of_ne hq]
  have htask : ∀ q, (s'.client q).task ≠ .user → (s.client q).task ≠ .user := by
    intro q hq
    by_cases hqp : q = p
    · subst hqp
      rw [hself] at hq
      exact fun hu => hq (huser.mpr hu)
    · rwa [hother q hqp] at hq
  have hreq : ∀ t, s'.request t = s.request t := by
    intro t
    cases t <;> simp only [BufSys.request, hdev.1, hdev.2, hlh]
  have hbuf : ∀ t, s'.bufs t = s.bufs t := by
    intro t
    cases t <;> simp only [BufSys.bufs, hdev.2, hlh]
  refine ⟨fun q hq => ?_, fun q hq => hcomm ▸ h.committing q (htask q hq),
    fun q r hq hr => h.alone q r (htask q hq) (htask r hr), ?_, fun hc => ?_, hlh ▸ h.nodup,
    fun hc => ?_, fun q => ?_, fun q k hq => ?_, fun q i b hq => ?_, fun q => ?_,
    fun q i hq hcall => ?_, fun q d b i hq hcall => ?_⟩
  · rw [hother q (by omega)]
    exact h.outside q hq
  · rw [hout, h.outstanding]
    refine sum_congr rfl fun q _ => ?_
    by_cases hqp : q = p
    · subst hqp
      rw [hself, hop]
    · rw [hother q hqp]
  · rw [hout]
    exact h.quiet (hcomm ▸ hc)
  · rw [hpins, hlh]
    exact h.idle (hcomm ▸ hc)
  · rw [hlh, hpins]
    by_cases hqp : q = p
    · rw [hqp, hself]
      exact hat
    · rw [hother q hqp]
      exact h.pins q
  · rw [hlh]
    by_cases hqp : q = p
    · rw [hqp, hself] at hq
      exact hindex k hq
    · rw [hother q hqp] at hq
      exact h.index q k hq
  · rw [hdev.1]
    by_cases hqp : q = p
    · subst hqp
      rw [hself] at hq ⊢
      exact hbufs i b (hbuf _ ▸ hq)
    · rw [hother q hqp] at hq ⊢
      obtain ⟨hown, hd, hb⟩ := h.bufs q i b (hbuf _ ▸ hq)
      have hpos := CacheInv.refs_pos_of_owns hown
      have hsame := hid i (hi.bound q i hpos) (hi.refcnt_pos hpos)
      rw [hsame.1, hsame.2]
      exact ⟨hown, hd, hb⟩
  · rw [hbuf]
    by_cases hqp : q = p
    · rw [hqp, hself]
      exact hdistinct
    · rw [hother q hqp]
      exact h.distinct q
  · by_cases hqp : q = p
    · rw [hqp, hself] at hq hcall ⊢
      exact hdrop i hq hcall
    · rw [hother q hqp] at hq hcall ⊢
      exact h.dropping q i hq hcall
  · rw [hreq]
    by_cases hqp : q = p
    · rw [hqp, hself] at hq hcall ⊢
      exact hasked d b i hq hcall
    · rw [hother q hqp] at hq hcall ⊢
      exact h.asked q d b i hq hcall

/-- What the commit unpins next is what the log has pinned first. -/
lemma pins_eq (h : CommitInv s) {k lbuf dbuf : ℕ} (ht : (s.client p).task = .iUnpin k lbuf dbuf) :
    s.logPins = (s.bc dbuf).blockno :: s.lh.drop (k + 1) ∧
      (s.bc dbuf).blockno ∉ s.lh.drop (k + 1) := by
  have hpins := h.pins p
  rw [ht] at hpins
  have hk := h.index p k (by rw [ht]; rfl)
  obtain ⟨-, -, hb⟩ := h.bufs p dbuf (s.lh.getD k 0) (by rw [ht]; simp [BufSys.bufs])
  have hdrop : s.lh.drop k = (s.bc dbuf).blockno :: s.lh.drop (k + 1) := by
    rw [List.drop_eq_getElem_cons hk, hb, List.getD_eq_getElem?_getD, List.getElem?_eq_getElem hk,
      Option.getD_some]
  have hnodup := hdrop ▸ h.nodup.sublist (List.drop_sublist k s.lh)
  exact ⟨Eq.trans hpins hdrop, (List.nodup_cons.mp hnodup).1⟩

end CommitInv

end Xv6
