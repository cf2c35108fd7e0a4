import Xv6.Bio.Inv

/-!
# The buffer cache: the references, step by step

Every step of a process keeps the two invariants of the cache and the log; a step that makes a buffer
over to another block takes one to which nobody refers.
-/

namespace Xv6

open Finset Function

/-! ## The cache -/

namespace CacheInv

variable {s s' : BufSys} {p i : ℕ} {c : Client} {a : BufStep}

lemma panic (h : CacheInv s) (msg : String) : CacheInv (s.panic msg) :=
  ⟨h.order, h.dev_ne, h.uniq, h.outside, h.bound, h.ref, h.lock, h.asked, h.nodup, h.fresh, h.pinned⟩

lemma update_same (bc : Bcache) (i n j : ℕ) :
    (update bc i { bc i with refcnt := n } j).dev = (bc j).dev ∧
    (update bc i { bc i with refcnt := n } j).blockno = (bc j).blockno ∧
    (update bc i { bc i with refcnt := n } j).lock = (bc j).lock := by
  refine ⟨proj_update Buf.dev ?_ j, proj_update Buf.blockno ?_ j, proj_update Buf.lock ?_ j⟩ <;> rfl

variable {n d b : ℕ} {t : CommitPc}

/-- A step that changes the number of references to one buffer. -/
lemma of_refcnt (h : CacheInv s) (hp : p < NPROC) (hclient : s'.client = update s.client p c)
    (hbc : s'.bc = update s.bc i { s.bc i with refcnt := n }) (hdev : s'.dev = s.dev)
    (hpins : s'.logPins = s.logPins) (hi : i < NBUF)
    (hc : c.held = (s.client p).held ∧ c.call.locked = (s.client p).call.locked)
    (hasked : ∀ d b j, c.call.asked = some (d, b, j) → (s.bc j).dev = d ∧ (s.bc j).blockno = b)
    (hrefs : ∀ j ≠ i, c.refs j = (s.client p).refs j)
    (hn : n + (s.client p).refs i = (s.bc i).refcnt + c.refs i) : CacheInv s' := by
  have hsame : ∀ j, (s'.bc j).dev = (s.bc j).dev ∧ (s'.bc j).blockno = (s.bc j).blockno ∧
      (s'.bc j).lock = (s.bc j).lock := fun j => hbc ▸ update_same _ _ n j
  obtain ⟨l, hl⟩ := h.order
  refine h.of_procCount hp hclient hdev hpins ⟨l, hbc ▸ hl.update rfl rfl⟩ hsame hc hasked
    (fun j hj => ?_) (fun j _ => ?_)
  · by_cases hji : j = i
    · exact hji ▸ hi
    · exact h.bound p j (hrefs j hji ▸ hj)
  · rw [hbc]
    by_cases hji : j = i
    · subst hji
      rw [update_self]
      dsimp only
      omega
    · rw [update_of_ne hji, hrefs j hji]

lemma refs_setCall (hcall : c.call = .none) (x : Call) (t : CommitPc) (j : ℕ) :
    ({ c with call := x, task := t } : Client).refs j =
      c.refs j + if x.buf = some j then 1 else 0 := by
  simp only [Client.refs, hcall, Call.buf, reduceCtorEq, if_false]
  omega

lemma bread (h : CacheInv s) (hp : p < NPROC) (hcall : (s.client p).call = .none) (d b : ℕ) :
    CacheInv (s.bread p d b) := by
  obtain ⟨l, hl⟩ := h.order
  rw [BufSys.bread]
  split
  case h_2 => exact h.panic _
  case h_1 i bc hget =>
    cases hl.bget_some hget with
    | recycle hlt hmiss href hlru => exact h.recycle hp hcall hlt hmiss href
    | hit hcached _ =>
      refine h.of_refcnt hp rfl rfl rfl rfl hcached.1 ⟨rfl, by simp [hcall]⟩ (fun e x j hj => ?_)
        (fun j hj => ?_) ?_
      · obtain ⟨rfl, rfl, rfl⟩ : d = e ∧ b = x ∧ i = j := by simpa using hj
        exact hcached.2
      · have hrefs := refs_setCall hcall (.locking d b i) (s.client p).task j
        rwa [if_neg (by simpa using Ne.symm hj), Nat.add_zero] at hrefs
      · have hrefs := refs_setCall hcall (.locking d b i) (s.client p).task i
        rw [Call.buf, if_pos rfl] at hrefs
        dsimp only
        omega

section

variable (h : CacheInv s)
include h

section

variable (hp : p < NPROC)
include hp

/-- A step that takes or gives up the sleep-lock of one buffer. -/
lemma of_lock {o : Option ℕ} (hclient : s'.client = update s.client p c)
    (hbc : s'.bc = update s.bc i { s.bc i with lock := o }) (hdev : s'.dev = s.dev)
    (hpins : s'.logPins = s.logPins) (hrefs : ∀ j, c.refs j = (s.client p).refs j)
    (hold : ∀ q ≠ p, (s.bc i).lock ≠ some q) (ho : ∀ q ≠ p, o ≠ some q)
    (hlockp : ∀ j, (if j = i then o else (s.bc j).lock) = some p ↔
      j ∈ c.held ∨ c.call.locked = some j)
    (hasked : ∀ d b j, c.call.asked = some (d, b, j) → (s.client p).call.asked = some (d, b, j))
    (hnodup : c.held.Nodup) (hfresh : ∀ j, c.call.locked = some j → j ∉ c.held) : CacheInv s' := by
  obtain ⟨l, hl⟩ := h.order
  have hlock : ∀ j, (s'.bc j).lock = if j = i then o else (s.bc j).lock := by
    intro j
    rw [hbc, update_apply, apply_ite Buf.lock]
  refine h.of_refs hp hclient hdev hpins ⟨l, hbc ▸ hl.update rfl rfl⟩
    (fun j => ?_) (fun j => ?_) hrefs (fun j q hq => ?_) (fun j => ?_) hasked hnodup hfresh
  · rw [hbc]
    exact ⟨proj_update Buf.dev (by rfl) j, proj_update Buf.blockno (by rfl) j⟩
  · rw [hbc]
    exact proj_update Buf.refcnt (by rfl) j
  · rw [hlock]
    split_ifs with hj
    · rw [hj]
      exact iff_of_false (ho q hq) (hold q hq)
    · exact Iff.rfl
  · rw [hlock]
    exact hlockp j

lemma lockAct (hcall : (s.client p).call = .locking d b i) (hfree : (s.bc i).lock = none) :
    CacheInv ((s.setBuf i { s.bc i with lock := some p }).setClient p
      { s.client p with call := .reading d b i }) := by
  have hnot : i ∉ (s.client p).held := fun hheld => by
    have := (h.lock i p).mpr (Or.inl hheld)
    rw [hfree] at this
    exact absurd this (by simp)
  refine h.of_lock hp rfl rfl rfl rfl (fun j => ?_) (fun q _ => ?_) (fun q hq => ?_) (fun j => ?_)
    (fun e x j hj => ?_) (h.nodup p) (fun j hj => ?_)
  · simp [Client.refs, hcall]
  · rw [hfree]
    simp
  · simpa using Ne.symm hq
  · split_ifs with hj
    · subst hj
      simp
    · rw [h.lock j p, hcall]
      simp [Ne.symm hj]
  · rw [hcall]
    simpa using hj
  · obtain rfl : i = j := by simpa using hj
    exact hnot

/-- `bread` returns. -/
lemma gotAct {bc : Bcache} (hcall : (s.client p).call = .reading d b i) (hbc : Alike s.bc bc) :
    CacheInv ({ s with bc := bc }.setClient p
      { s.client p with call := .none, held := i :: (s.client p).held, task := t }) := by
  obtain ⟨l, hl⟩ := h.order
  have hsame : ∀ j, (bc j).dev = (s.bc j).dev ∧ (bc j).blockno = (s.bc j).blockno ∧
      (bc j).refcnt = (s.bc j).refcnt ∧ (bc j).lock = (s.bc j).lock := by
    intro j
    obtain ⟨v, x, hj⟩ := hbc j
    rw [hj]
    exact ⟨rfl, rfl, rfl, rfl⟩
  refine h.of_refs hp rfl rfl rfl ⟨l, hbc.order hl⟩ (fun j => ⟨(hsame j).1, (hsame j).2.1⟩)
    (fun j => (hsame j).2.2.1) (fun j => ?_) (fun j q _ => ?_) (fun j => ?_)
    (fun e x j hj => by simp at hj) ?_ (fun j hj => by simp at hj)
  · simp only [Client.refs, hcall, Call.buf, List.count_cons, Option.some.injEq, reduceCtorEq,
      if_false, beq_iff_eq]
    omega
  · exact iff_of_eq (congrArg (· = some q) (hsame j).2.2.2)
  · have hold := h.lock j p
    rw [hcall] at hold
    change (bc j).lock = some p ↔ _
    rw [(hsame j).2.2.2, hold]
    simp only [Call.locked, Option.some.injEq, List.mem_cons, reduceCtorEq, or_false]
    rw [or_comm, eq_comm]
  · exact List.nodup_cons.mpr ⟨h.fresh p i (by rw [hcall]; rfl), h.nodup p⟩

lemma brelse (hcall : (s.client p).call = .none) (i : ℕ) : CacheInv (s.brelse p i) := by
  rw [BufSys.brelse]
  split
  case isFalse => exact h.panic _
  case isTrue hl =>
    have hheld := h.held_of_lock hcall hl
    refine h.of_lock hp rfl rfl rfl rfl (fun j => ?_) (fun q hq => ?_) (fun q _ => by simp)
      (fun j => ?_) (fun e x j hj => by simp at hj) ((h.nodup p).erase i)
      (fun j hj => by simp at hj)
    · have hpos := List.count_pos_iff.mpr hheld
      simp only [Client.refs, hcall, Call.buf, Option.some.injEq, reduceCtorEq, if_false,
        List.count_erase, beq_iff_eq]
      split_ifs with hij
      · subst hij
        omega
      · omega
    · rw [hl]
      simpa using Ne.symm hq
    · dsimp only
      rw [(h.nodup p).mem_erase_iff]
      split_ifs with hj
      · simp [hj]
      · rw [h.lock j p, hcall]
        simp [hj]

lemma dropAct (hcall : (s.client p).call = .dropping i) :
    CacheInv ({ s with bc := s.bc.drop i }.setClient p
      { s.client p with call := .none, task := t }) := by
  obtain ⟨l, hl⟩ := h.order
  have hpos : 0 < (s.client p).refs i := refs_pos_of_call (by rw [hcall]; rfl)
  have hi := h.bound p i hpos
  have hcnt := h.refcnt_pos hpos
  have hrefs : ∀ j, (s.client p).refs j = ({ s.client p with call := .none, task := t } : Client).refs j
      + if i = j then 1 else 0 := by
    intro j
    simp only [Client.refs, hcall, Call.buf, Option.some.injEq, reduceCtorEq, if_false]
    omega
  have hsame : ∀ j, (s.bc.drop i j).dev = (s.bc j).dev ∧ (s.bc.drop i j).blockno = (s.bc j).blockno ∧
      (s.bc.drop i j).lock = (s.bc j).lock := by
    intro j
    have hb := Bcache.sameBut_drop s.bc i j
    have hu := update_same s.bc i ((s.bc i).refcnt - 1) j
    exact ⟨hb.dev.trans hu.1, hb.blockno.trans hu.2.1, hb.lock.trans hu.2.2⟩
  obtain ⟨l', hl', -⟩ := hl.drop hi
  refine h.of_procCount hp rfl rfl rfl ⟨l', hl'⟩ hsame ⟨rfl, by rw [hcall]; rfl⟩
    (fun e x j hj => by simp at hj) (fun j hj => h.bound p j ?_) (fun j _ => ?_)
  · rw [hrefs]
    omega
  · have hb := (Bcache.sameBut_drop s.bc i j).refcnt
    have hr := hrefs j
    change (s.bc.drop i j).refcnt + _ = _
    rw [hb]
    by_cases hj : j = i
    · subst hj
      rw [if_pos rfl] at hr
      rw [update_self]
      dsimp only at hr ⊢
      omega
    · rw [if_neg (Ne.symm hj)] at hr
      rw [update_of_ne hj]
      omega

/-- A step in which the log pins or unpins one buffer. -/
lemma of_pins (hclient : s'.client = update s.client p c)
    (hbc : s'.bc = update s.bc i { s.bc i with refcnt := n }) (hdev : s'.dev = s.dev)
    (hi : i < NBUF) (hd : (s.bc i).dev = s.dev)
    (hc : c.call = (s.client p).call ∧ c.held = (s.client p).held ∧ c.pins = (s.client p).pins)
    (hother : ∀ b ≠ (s.bc i).blockno, b ∈ s'.logPins ↔ b ∈ s.logPins)
    (hn : n + (if (s.bc i).blockno ∈ s.logPins then 1 else 0) =
      (s.bc i).refcnt + if (s.bc i).blockno ∈ s'.logPins then 1 else 0) : CacheInv s' := by
  have hsame : ∀ j, (s'.bc j).dev = (s.bc j).dev ∧ (s'.bc j).blockno = (s.bc j).blockno ∧
      (s'.bc j).lock = (s.bc j).lock := fun j => hbc ▸ update_same _ _ n j
  have hrefs : ∀ j, c.refs j = (s.client p).refs j := fun j => by
    rw [Client.refs, Client.refs, hc.1, hc.2.1, hc.2.2]
  obtain ⟨l, hl⟩ := h.order
  refine h.of_count hp hclient hdev ⟨l, hbc ▸ hl.update rfl rfl⟩ hsame hc.2.1 (by rw [hc.1])
    (fun d b j hj => h.asked p d b j (hc.1 ▸ hj)) (fun j hj => h.bound p j (hrefs j ▸ hj))
    (fun j hj => ?_) (fun b hb => ?_)
  · rw [hrefs j, BufSys.logRef, BufSys.logRef, (hsame j).1, (hsame j).2.1, hdev, hbc]
    by_cases hji : j = i
    · subst hji
      rw [update_self]
      simp only [hd, true_and]
      omega
    · -- another buffer does not hold this block
      rw [update_of_ne hji]
      have hiff : (s.bc j).dev = s.dev ∧ (s.bc j).blockno ∈ s'.logPins ↔
          (s.bc j).dev = s.dev ∧ (s.bc j).blockno ∈ s.logPins := by
        refine and_congr_right fun hdj => hother _ fun hb => hji ?_
        exact h.uniq j i s.dev _ h.dev_ne ⟨hj, hdj, hb⟩ ⟨hi, hd, rfl⟩
      simp only [hiff]
  · by_cases hbi : b = (s.bc i).blockno
    · exact ⟨i, hi, hd, hbi.symm⟩
    · exact h.pinned b ((hother b hbi).mp hb)

end

lemma logWrite (hc : CommitInv s) (hp : p < NPROC) (hi : i ∈ (s.client p).held)
    (hd : (s.bc i).dev = s.dev) : CacheInv (s.logWrite p i) := by
  rw [BufSys.logWrite]
  dsimp only
  split_ifs with hfull hout habs
  · exact h.panic _
  · exact h.panic _
  · exact h.of_alike hp rfl rfl rfl (Alike.refl _) ⟨rfl, rfl, rfl⟩
  · have hpins := hc.idle (hc.not_committing (by omega))
    refine h.of_pins hp rfl rfl rfl (h.lt_of_held hi) hd ⟨rfl, rfl, rfl⟩ (fun b hb => ?_) ?_
    · simp [BufSys.setClient, hb]
    · have hnew : (s.bc i).blockno ∉ s.logPins := hpins ▸ habs
      simp [BufSys.setClient, hnew]

lemma unpin (hc : CommitInv s) (hp : p < NPROC) {k lbuf dbuf : ℕ}
    (ht : (s.client p).task = .iUnpin k lbuf dbuf) (t : CommitPc) :
    CacheInv ({ s with
      bc := s.bc.bunpin dbuf, logPins := s.logPins.erase (s.bc dbuf).blockno }.setTask p t) := by
  obtain ⟨hown, hd, -⟩ := hc.bufs p dbuf (s.lh.getD k 0) (by rw [ht]; simp [BufSys.bufs])
  obtain ⟨hpins, hnot⟩ := hc.pins_eq ht
  have hrefs := refs_pos_of_owns hown
  have hpos := h.refcnt_pos hrefs
  refine h.of_pins hp rfl rfl rfl (h.bound p dbuf hrefs) hd ⟨rfl, rfl, rfl⟩ (fun b hb => ?_) ?_
  · exact List.mem_erase_of_ne hb
  · rw [BufSys.setTask, BufSys.setClient]
    simp only [hpins, List.erase_cons_head, List.mem_cons_self, hnot, if_true, if_false]
    omega

/-- **The references, step by step.** -/
theorem step (hc : CommitInv s) (hp : p < NPROC) (hact : s.Acts p a s')
    (hlog : ∀ i, a = .logWrite p i → (s.bc i).dev = s.dev) : CacheInv s' := by
  cases hact with
  | bread _ d b hcall _ => exact h.bread hp hcall d b
  | lock d b i hcall hfree => exact h.lockAct hp hcall hfree
  | fill d b i hcall _ => exact h.gotAct hp hcall alike_update
  | found d b i hcall _ => exact h.gotAct hp hcall (Alike.refl _)
  | store => exact h.of_alike hp rfl rfl rfl alike_update ⟨rfl, rfl, rfl⟩
  | bwrite =>
    rw [BufSys.bwrite]
    split_ifs
    · exact h.of_alike hp rfl rfl rfl (Alike.refl _) ⟨rfl, rfl, rfl⟩
    · exact h.panic _
  | brelse _ i hcall _ => exact h.brelse hp hcall i
  | drop i hcall => exact h.dropAct hp hcall
  | logWrite i hfree hi => exact h.logWrite hc hp hi (hlog i rfl)
  | bpin i hfree hi =>
    refine h.of_refcnt hp rfl rfl rfl rfl (h.lt_of_held hi) ⟨rfl, rfl⟩
      (fun d b j hj => h.asked p d b j hj) (fun j hj => ?_) ?_
    · simp [Client.refs, Ne.symm hj]
    · simp only [Client.refs, List.count_cons_self]
      omega
  | bunpin i hfree hi =>
    have hrefs := refs_pos_of_pins hi
    have hcnt := List.count_pos_iff.mpr hi
    have hpos := h.refcnt_pos hrefs
    refine h.of_refcnt hp rfl rfl rfl rfl (h.bound p i hrefs) ⟨rfl, rfl⟩
      (fun d b j hj => h.asked p d b j hj) (fun j hj => ?_) ?_
    · simp [Client.refs, List.count_erase_of_ne hj]
    · simp only [Client.refs, List.count_erase_self]
      omega
  | endOp =>
    rw [BufSys.endOp]
    dsimp only
    split_ifs
    · have hless : CacheInv { s with outstanding := s.outstanding - 1 } :=
        h.of_alike hp (update_eq_self ..).symm rfl rfl (Alike.refl _) ⟨rfl, rfl, rfl⟩
      exact hless.panic _
    · exact h.of_alike hp rfl rfl rfl (Alike.refl _) ⟨rfl, rfl, rfl⟩
    · exact h.of_alike hp rfl rfl rfl (Alike.refl _) ⟨rfl, rfl, rfl⟩
  | unpin k lbuf dbuf _ ht => exact h.unpin hc hp ht _
  | beginOp | move | clear | finish =>
    exact h.of_alike hp rfl rfl rfl (Alike.refl _) ⟨rfl, rfl, rfl⟩

/-- **No buffer in use is recycled.**  A step leaves a buffer to which there is a reference with the
block it holds. -/
lemma identity (hact : s.Acts p a s') {j : ℕ} (hj : 0 < (s.bc j).refcnt) :
    (s'.bc j).dev = (s.bc j).dev ∧ (s'.bc j).blockno = (s.bc j).blockno := by
  have hof : ∀ {k x}, x.dev = (s.bc k).dev → x.blockno = (s.bc k).blockno →
      (update s.bc k x j).dev = (s.bc j).dev ∧ (update s.bc k x j).blockno = (s.bc j).blockno :=
    fun hd hb => ⟨proj_update Buf.dev hd j, proj_update Buf.blockno hb j⟩
  cases hact with
  | bread _ d b =>
    obtain ⟨l, hl⟩ := h.order
    rw [BufSys.bread]
    split
    case h_2 => exact ⟨rfl, rfl⟩
    case h_1 i bc hget =>
      cases hl.bget_some hget with
      | hit => exact hof rfl rfl
      | recycle _ _ href _ =>
        have hji : j ≠ i := by
          rintro rfl
          omega
        have heq : ∀ x, update s.bc i x j = s.bc j := fun x =>
          update_of_ne hji x s.bc
        exact ⟨congrArg Buf.dev (heq _), congrArg Buf.blockno (heq _)⟩
  | bwrite =>
    rw [BufSys.bwrite]
    split_ifs <;> exact ⟨rfl, rfl⟩
  | brelse =>
    rw [BufSys.brelse]
    split_ifs
    · exact hof rfl rfl
    · exact ⟨rfl, rfl⟩
  | drop i =>
    have hb := Bcache.sameBut_drop s.bc i j
    have hu := update_same s.bc i ((s.bc i).refcnt - 1) j
    exact ⟨hb.dev.trans hu.1, hb.blockno.trans hu.2.1⟩
  | logWrite =>
    rw [BufSys.logWrite]
    dsimp only
    split_ifs
    iterate 3 exact ⟨rfl, rfl⟩
    exact hof rfl rfl
  | lock | fill | store | bpin | bunpin | unpin => exact hof rfl rfl
  | endOp =>
    rw [BufSys.endOp]
    dsimp only
    split_ifs <;> exact ⟨rfl, rfl⟩
  | found | beginOp | move | clear | finish => exact ⟨rfl, rfl⟩

end

end CacheInv

namespace CommitInv

variable {s s' : BufSys} {p i : ℕ} {c : Client} {a : BufStep}

lemma panic (h : CommitInv s) (msg : String) : CommitInv (s.panic msg) :=
  ⟨h.outside, h.committing, h.alone, h.outstanding, h.quiet, h.nodup, h.idle, h.pins, h.index, h.bufs,
    h.distinct, h.dropping, h.asked⟩

/-- A step that leaves the position in the commit. -/
lemma of_task (h : CommitInv s) (hi : CacheInv s) (hp : p < NPROC) (hact : s.Acts p a s')
    (hclient : s'.client = update s.client p c)
    (hdev : s'.dev = s.dev ∧ s'.start = s.start) (hlh : s'.lh = s.lh) (hpins : s'.logPins = s.logPins)
    (hcomm : s'.committing = s.committing) (hout : s'.outstanding = s.outstanding)
    (hop : c.inOp = (s.client p).inOp) (htask : c.task = (s.client p).task)
    (hown : ∀ i b, (i, b) ∈ s.bufs (s.client p).task → c.Owns i)
    (hdrop : ∀ i, (s.client p).task ≠ .user → c.call = .dropping i →
      (s.client p).task.releases = some i)
    (hasked : ∀ d b i, (s.client p).task ≠ .user → c.call.asked = some (d, b, i) →
      s.request (s.client p).task = some (d, b)) : CommitInv s' := by
  refine h.of_client hi hp hclient hdev hlh hpins hcomm hout (fun j _ hj => hi.identity hact hj) hop
    (by rw [htask]) (htask ▸ h.pins p) (fun k hk => h.index p k (htask ▸ hk)) (fun i b hb => ?_)
    (htask ▸ h.distinct p) (fun i => htask ▸ hdrop i) (fun d b i => htask ▸ hasked d b i)
  rw [htask] at hb
  obtain ⟨hi', hd, hblk⟩ := h.bufs p i b hb
  have hsame := hi.identity hact (hi.refcnt_pos (CacheInv.refs_pos_of_owns hi'))
  exact ⟨hown i b hb, hsame.1.trans hd, hsame.2.trans hblk⟩

/-- A step to a following position. -/
lemma of_follows (h : CommitInv s) (hi : CacheInv s) (hp : p < NPROC) (hact : s.Acts p a s')
    (hclient : s'.client = update s.client p c)
    (hdev : s'.dev = s.dev ∧ s'.start = s.start) (hlh : s'.lh = s.lh) (hpins : s'.logPins = s.logPins)
    (hcomm : s'.committing = s.committing) (hout : s'.outstanding = s.outstanding)
    (hop : c.inOp = (s.client p).inOp) (hcall : c.call = .none) (hcall' : (s.client p).call = .none)
    (hf : (s.client p).task.Follows c.task) (hheld : c.held = (s.client p).held) :
    CommitInv s' := by
  refine h.of_client hi hp hclient hdev hlh hpins hcomm hout (fun j _ hj => hi.identity hact hj) hop
    hf.user (hf.pins _ _ (h.pins p)) (fun k hk => h.index p k (hf.index ▸ hk)) (fun i b hb => ?_)
    (hf.bufs s ▸ h.distinct p) (fun i _ hdrop => ?_) (fun d b i _ hasked => ?_)
  · obtain ⟨hi', hd, hblk⟩ := h.bufs p i b (hf.bufs s ▸ hb)
    have hsame := hi.identity hact (hi.refcnt_pos (CacheInv.refs_pos_of_owns hi'))
    refine ⟨?_, hsame.1.trans hd, hsame.2.trans hblk⟩
    rw [Client.Owns, hheld, hcall, ← hcall']
    exact hi'
  · rw [hcall] at hdrop
    exact absurd hdrop (by simp)
  · rw [hcall] at hasked
    exact absurd hasked (by simp)

lemma follows_refl (t : CommitPc) : t.Follows t := ⟨Iff.rfl, fun _ _ => id, rfl, fun _ => rfl⟩

section

variable (h : CommitInv s)
include h

/-- How the number of open operations changes. -/
lemma sum_inOp (hp : p < NPROC) (hclient : s'.client = update s.client p c)
    (hsum : s'.outstanding + (if (s.client p).inOp then 1 else 0) =
      s.outstanding + if c.inOp then 1 else 0) :
    s'.outstanding = ∑ q ∈ range NPROC, if (s'.client q).inOp then (1 : ℤ) else 0 := by
  have hupd := sum_update_add (fun c : Client => if c.inOp then (1 : ℤ) else 0) s.client
    (mem_range.mpr hp) c
  rw [hclient]
  have hout := h.outstanding
  omega

/-- A step after which nobody commits. -/
lemma of_idle (hp : p < NPROC) (hclient : s'.client = update s.client p c)
    (hsum : s'.outstanding + (if (s.client p).inOp then 1 else 0) =
      s.outstanding + if c.inOp then 1 else 0)
    (hcomm : s'.committing = false) (hnodup : s'.lh.Nodup) (hpins : s'.logPins = s'.lh)
    (hother : ∀ q ≠ p, (s.client q).task = .user) (hc : c.task = .user) : CommitInv s' := by
  have htask : ∀ q, (s'.client q).task = .user := by
    rw [hclient]
    exact (forall_update_iff s.client fun _ y => y.task = .user).mpr ⟨hc, hother⟩
  refine ⟨fun q hq => ?_, fun q hq => absurd (htask q) hq, fun q r hq => absurd (htask q) hq,
    h.sum_inOp hp hclient hsum, fun hc => ?_, hnodup, fun _ => hpins, fun q => ?_, fun q k hk => ?_,
    fun q i b hb => ?_, fun q => ?_, fun q i hq => absurd (htask q) hq,
    fun q d b i hq => absurd (htask q) hq⟩
  · rw [hclient, update_of_ne (by omega)]
    exact h.outside q hq
  · rw [hcomm] at hc
    exact absurd hc (by simp)
  · rw [htask q]
    trivial
  · rw [htask q] at hk
    exact absurd hk (by simp [CommitPc.index])
  · rw [htask q] at hb
    exact absurd hb (by simp [BufSys.bufs])
  · rw [htask q]
    exact List.nodup_nil

/-- A step after which process `p` commits, and calls neither `bread` nor `brelse` now. -/
lemma of_committer (hp : p < NPROC) (hclient : s'.client = update s.client p c)
    (hsum : s'.outstanding + (if (s.client p).inOp then 1 else 0) =
      s.outstanding + if c.inOp then 1 else 0)
    (hzero : s'.outstanding = 0) (hcomm : s'.committing = true) (hnodup : s'.lh.Nodup)
    (hother : ∀ q ≠ p, (s.client q).task = .user) (hcall : c.call = .none)
    (hpins : c.task.PinsAt s'.lh s'.logPins)
    (hindex : ∀ k, c.task.index = some k → k < s'.lh.length)
    (hbufs : ∀ i b, (i, b) ∈ s'.bufs c.task →
      c.Owns i ∧ (s'.bc i).dev = s'.dev ∧ (s'.bc i).blockno = b)
    (hdistinct : ((s'.bufs c.task).map Prod.fst).Nodup) : CommitInv s' := by
  have hself : s'.client p = c := by rw [hclient, update_self]
  have htask : ∀ q ≠ p, (s'.client q).task = .user := fun q hq => by
    rw [hclient, update_of_ne hq, hother q hq]
  have hp' : ∀ q, (s'.client q).task ≠ .user → q = p := fun q hq => by
    by_contra hqp
    exact hq (htask q hqp)
  refine ⟨fun q hq => ?_, fun _ _ => hcomm, fun q r hq hr => (hp' q hq).trans (hp' r hr).symm,
    h.sum_inOp hp hclient hsum, fun _ => hzero, hnodup, fun hc => ?_, fun q => ?_, fun q k hk => ?_,
    fun q i b hb => ?_, fun q => ?_, fun q i hq ha => ?_, fun q d b i hq ha => ?_⟩
  · rw [hclient, update_of_ne (by omega)]
    exact h.outside q hq
  · rw [hcomm] at hc
    exact absurd hc (by simp)
  · by_cases hq : q = p
    · rw [hq, hself]
      exact hpins
    · rw [htask q hq]
      trivial
  · by_cases hq : q = p
    · rw [hq, hself] at hk
      exact hindex k hk
    · rw [htask q hq] at hk
      exact absurd hk (by simp [CommitPc.index])
  · by_cases hq : q = p
    · rw [hq, hself] at hb ⊢
      exact hbufs i b hb
    · rw [htask q hq] at hb
      exact absurd hb (by simp [BufSys.bufs])
  · by_cases hq : q = p
    · rw [hq, hself]
      exact hdistinct
    · rw [htask q hq]
      exact List.nodup_nil
  · rw [hp' q hq, hself, hcall] at ha
    exact absurd ha (by simp)
  · rw [hp' q hq, hself, hcall] at ha
    exact absurd ha (by simp)

/-- If nobody commits, all processes are outside of `commit()`. -/
lemma task_user (hc : s.committing = false) (q : ℕ) : (s.client q).task = .user := by
  by_contra hq
  rw [h.committing q hq] at hc
  exact absurd hc (by simp)

/-- Only one process commits. -/
lemma other_user (hp : (s.client p).task ≠ .user) (q : ℕ) (hq : q ≠ p) :
    (s.client q).task = .user := by
  by_contra htask
  exact hq (h.alone q p htask hp)

/-- An open operation is counted. -/
lemma one_le_outstanding (hp : p < NPROC) (hop : (s.client p).inOp = true) : 1 ≤ s.outstanding := by
  have hle : (if (s.client p).inOp then (1 : ℤ) else 0) ≤
      ∑ q ∈ range NPROC, if (s.client q).inOp then (1 : ℤ) else 0 :=
    single_le_sum (f := fun q => if (s.client q).inOp then (1 : ℤ) else 0)
      (fun q _ => by split_ifs <;> simp) (mem_range.mpr hp)
  rw [hop, if_pos rfl] at hle
  rw [h.outstanding]
  exact hle

end

variable {b d : ℕ} {t : CommitPc} {x : ℕ × ℕ}

/-- Between its calls, `commit()` holds its buffers. -/
lemma held_of_bufs (h : CommitInv s) (hcall : ∀ j, (s.client p).call ≠ .dropping j)
    (hb : (i, b) ∈ s.bufs (s.client p).task) : i ∈ (s.client p).held :=
  (h.bufs p i b hb).1.resolve_right (hcall i)

lemma bread (h : CommitInv s) (hi : CacheInv s) (hp : p < NPROC)
    (hact : s.Acts p a (s.bread p d b)) (hcall : (s.client p).call = .none)
    (hreq : (s.client p).task = .user ∨ s.request (s.client p).task = some (d, b)) :
    CommitInv (s.bread p d b) := by
  cases hget : s.bc.bget d b with
  | none =>
    rw [BufSys.bread, hget]
    exact h.panic _
  | some x =>
    obtain ⟨i, bc⟩ := x
    rw [BufSys.bread, hget] at hact ⊢
    refine h.of_task hi hp hact rfl ⟨rfl, rfl⟩ rfl rfl rfl rfl rfl rfl
      (fun j x hj => Or.inl (h.held_of_bufs (by simp [hcall]) hj)) (fun j _ hj => absurd hj (by simp))
      (fun e x j ht hasked => ?_)
    obtain ⟨rfl, rfl, rfl⟩ : d = e ∧ b = x ∧ i = j := by simpa using hasked
    exact hreq.resolve_left ht

/-- The index of a loop body stays below `log.lh.n` when `bread` returns. -/
lemma index_got {k : ℕ}
    (ht : t = .user ∨ s.request t = some x) (hindex : ∀ k, t.index = some k → k < s.lh.length)
    (hk : (t.got i).index = some k) : k < s.lh.length := by
  cases t with
  | wTo n | iLog n =>
    have hn : n < s.lh.length := by
      by_contra hn
      simp [BufSys.request, hn] at ht
    simp only [CommitPc.got, CommitPc.index, Option.some.injEq] at hk
    exact hk ▸ hn
  | hGet last => simp [CommitPc.got, CommitPc.index] at hk
  | _ => exact hindex k hk

/-- `commit()` stores into a buffer it holds. -/
lemma held_of_stores (h : CommitInv s) (hcall : (s.client p).call = .none) {data : Block}
    (ht : s.stores (s.client p).task = some (i, data, t)) :
    i ∈ (s.client p).held := by
  have hbuf : ∃ b, (i, b) ∈ s.bufs (s.client p).task := by
    revert ht
    cases (s.client p).task <;> simp [BufSys.stores, BufSys.bufs]
    all_goals
      intro hi _ _
      simp [hi]
  obtain ⟨b, hb⟩ := hbuf
  exact h.held_of_bufs (by simp [hcall]) hb

/-- When `bread` returns, `commit()` has one buffer more: that of the block it has asked for. -/
lemma bufs_got (ht : t = .user ∨ s.request t = some x) :
    s.bufs (t.got i) = s.bufs t ∨ x.1 = s.dev ∧ s.bufs (t.got i) = s.bufs t ++ [(i, x.2)] := by
  cases t with
  | wTo | iLog =>
    have hx := ht.resolve_left (by simp)
    simp only [BufSys.request] at hx
    split_ifs at hx
    obtain rfl := Option.some.inj hx
    exact Or.inr ⟨rfl, rfl⟩
  | wFrom | iHome | hGet =>
    obtain rfl := Option.some.inj (ht.resolve_left (by simp))
    exact Or.inr ⟨rfl, rfl⟩
  | _ => exact Or.inl rfl

/-- When `brelse` returns, `commit()` has one buffer less. -/
lemma bufs_dropped (hb : (i, b) ∈ s.bufs t.dropped) (hdistinct : ((s.bufs t).map Prod.fst).Nodup) :
    (i, b) ∈ s.bufs t ∧ ∀ j, t.releases = some j → i ≠ j := by
  cases t with
  | hDrop last c => cases last <;> simp [CommitPc.dropped, BufSys.bufs] at hb
  | wDropFrom k b₁ b₂ =>
    simp only [CommitPc.dropped, BufSys.bufs, List.mem_singleton, Prod.mk.injEq] at hb
    simp [BufSys.bufs] at hdistinct
    simp [BufSys.bufs, hb, hdistinct]
  | iDropLog k b₁ b₂ =>
    simp only [CommitPc.dropped, BufSys.bufs, List.mem_singleton, Prod.mk.injEq] at hb
    simp [BufSys.bufs] at hdistinct
    simp [BufSys.bufs, hb, Ne.symm hdistinct]
  | wDropTo | iDropHome => simp [CommitPc.dropped, BufSys.bufs] at hb
  | _ => exact ⟨hb, by simp⟩

lemma distinct_dropped (h : ((s.bufs t).map Prod.fst).Nodup) :
    ((s.bufs t.dropped).map Prod.fst).Nodup := by
  cases t with
  | hDrop last c => cases last <;> exact List.nodup_nil
  | wDropFrom | iDropLog => exact List.nodup_singleton _
  | wDropTo | iDropHome => exact List.nodup_nil
  | _ => exact h

section

variable (h : CommitInv s)
include h

/-- `bread` returns. -/
lemma gotAct (hi : CacheInv s) (hp : p < NPROC) {bc : Bcache}
    (hcall : (s.client p).call = .reading d b i) (hbc : CacheInv.Alike s.bc bc) :
    CommitInv ({ s with bc := bc }.setClient p { s.client p with
      call := .none, held := i :: (s.client p).held, task := (s.client p).task.got i }) := by
  have hsame : ∀ j, (bc j).dev = (s.bc j).dev ∧ (bc j).blockno = (s.bc j).blockno := by
    intro j
    obtain ⟨v, x, hj⟩ := hbc j
    rw [hj]
    exact ⟨rfl, rfl⟩
  have hasked : (s.client p).call.asked = some (d, b, i) := by
    rw [hcall]
    rfl
  have hreq : (s.client p).task = .user ∨ s.request (s.client p).task = some (d, b) :=
    or_iff_not_imp_left.mpr fun ht => h.asked p d b i ht hasked
  have hheld : ∀ j x, (j, x) ∈ s.bufs (s.client p).task → j ∈ (s.client p).held := fun j x hj =>
    h.held_of_bufs (by simp [hcall]) hj
  have hold : ∀ j x, (j, x) ∈ s.bufs (s.client p).task →
      j ∈ i :: (s.client p).held ∧ (bc j).dev = s.dev ∧ (bc j).blockno = x := fun j x hj =>
    ⟨List.mem_cons_of_mem _ (hheld j x hj), (hsame j).1.trans (h.bufs p j x hj).2.1,
      (hsame j).2.trans (h.bufs p j x hj).2.2⟩
  refine h.of_client hi hp rfl ⟨rfl, rfl⟩ rfl rfl rfl rfl (fun j _ _ => hsame j) rfl
    CommitPc.got_eq_user (CommitPc.pinsAt_got.mpr (h.pins p))
    (fun k hk => index_got hreq (h.index p) hk) (fun j x hj => ?_) ?_
    (fun j _ hj => absurd hj (by simp)) (fun e x j _ hj => absurd hj (by simp))
  · suffices hgoal : j ∈ i :: (s.client p).held ∧ (bc j).dev = s.dev ∧ (bc j).blockno = x from
      ⟨Or.inl hgoal.1, hgoal.2⟩
    rcases bufs_got (i := i) hreq with heq | ⟨hd, heq⟩
    · exact hold j x (heq ▸ hj)
    · rcases List.mem_append.mp (heq ▸ hj) with hj | hj
      · exact hold j x hj
      · obtain ⟨rfl, rfl⟩ := Prod.mk.inj (List.mem_singleton.mp hj)
        have hid := hi.asked p d _ j hasked
        exact ⟨List.mem_cons_self, (hsame j).1.trans (hid.1.trans hd), (hsame j).2.trans hid.2⟩
  · change ((s.bufs ((s.client p).task.got i)).map Prod.fst).Nodup
    rcases bufs_got (i := i) hreq with heq | ⟨-, heq⟩
    · rw [heq]
      exact h.distinct p
    · rw [heq, List.map_append]
      refine (h.distinct p).append (List.nodup_singleton _) ?_
      -- the lock of the new buffer was free, so it is none of those held already
      simp only [List.map_cons, List.map_nil, List.disjoint_singleton, List.mem_map, Prod.exists,
        exists_and_right, exists_eq_right, not_exists]
      exact fun x hx => hi.fresh p i (by rw [hcall]; rfl) (hheld i x hx)

lemma brelse (hi : CacheInv s) (hp : p < NPROC)
    (hact : s.Acts p a (s.brelse p i)) (hcall : (s.client p).call = .none)
    (hrel : (s.client p).task = .user ∨ (s.client p).task.releases = some i) :
    CommitInv (s.brelse p i) := by
  by_cases hl : (s.bc i).lock = some p
  · rw [BufSys.brelse, if_pos hl] at hact ⊢
    refine h.of_task hi hp hact rfl ⟨rfl, rfl⟩ rfl rfl rfl rfl rfl rfl (fun j x hj => ?_)
      (fun j ht hj => ?_) (fun e x j _ hj => absurd hj (by simp))
    · by_cases hji : j = i
      · exact Or.inr (by rw [hji])
      · exact Or.inl ((List.mem_erase_of_ne hji).mpr (h.held_of_bufs (by simp [hcall]) hj))
    · obtain rfl : i = j := by simpa using hj
      exact hrel.resolve_left ht
  · rw [BufSys.brelse, if_neg hl]
    exact h.panic _

lemma logWrite (hi : CacheInv s) (hp : p < NPROC)
    (hact : s.Acts p a (s.logWrite p i)) : CommitInv (s.logWrite p i) := by
  have hcases : s.logWrite p i = s.logWrite p i := rfl
  conv_rhs at hcases => rw [BufSys.logWrite]
  dsimp only at hcases
  split_ifs at hcases with hfull hout habs
  · exact hcases ▸ h.panic _
  · exact hcases ▸ h.panic _
  · rw [hcases] at hact ⊢
    exact h.of_task hi hp hact rfl ⟨rfl, rfl⟩ rfl rfl rfl rfl rfl rfl
      (fun j x hj => (h.bufs p j x hj).1) (h.dropping p) (h.asked p)
  · rw [hcases]
    have hc := h.not_committing (by omega)
    refine h.of_idle hp rfl rfl hc ?_ ?_ (fun q _ => h.task_user hc q) (h.task_user hc p)
    · exact h.nodup.append (List.nodup_singleton _) (by simpa using habs)
    · exact congrArg (· ++ [(s.bc i).blockno]) (h.idle hc)

lemma endOp (hp : p < NPROC) (hfree : s.Free p) (hop : (s.client p).inOp = true) :
    CommitInv (s.endOp p) := by
  have hc := h.not_committing (h.one_le_outstanding hp hop)
  rw [BufSys.endOp]
  dsimp only
  rw [if_neg (by simp [hc])]
  have hsum : s.outstanding - 1 + (if (s.client p).inOp then 1 else 0) =
      s.outstanding + if false = true then 1 else 0 := by
    rw [hop]
    simp
  split_ifs with hzero
  · exact h.of_committer hp rfl hsum hzero rfl h.nodup (fun q _ => h.task_user hc q) hfree.1
      (h.idle hc) (fun k hk => absurd hk (by simp [CommitPc.index]))
      (fun i b hb => absurd hb (by simp [BufSys.bufs])) List.nodup_nil
  · exact h.of_idle hp rfl hsum hc h.nodup (h.idle hc) (fun q _ => h.task_user hc q)
      (h.task_user hc p)

/-- The tests of `commit()`. -/
lemma move (hi : CacheInv s) (hp : p < NPROC)
    (hact : s.Acts p a (s.setTask p t)) (hcall : (s.client p).call = .none)
    (hm : s.moves (s.client p).task = some t) : CommitInv (s.setTask p t) := by
  have hpins := h.pins p
  have hgoal : (t = .user ↔ (s.client p).task = .user) ∧ t.PinsAt s.lh s.logPins ∧
      t.index = none ∧ s.bufs t = [] := by
    cases ht : (s.client p).task with
    | cTest =>
      rw [ht] at hm hpins
      simp only [BufSys.moves, Option.some.injEq] at hm
      split_ifs at hm with hlen
      · rw [← hm]
        exact ⟨by simp, hpins, rfl, rfl⟩
      · rw [← hm]
        exact ⟨by simp, ⟨hpins, List.length_eq_zero_iff.mp (by omega)⟩, rfl, rfl⟩
    | wTo k =>
      rw [ht] at hm hpins
      simp only [BufSys.moves] at hm
      split_ifs at hm
      obtain rfl := Option.some.inj hm
      exact ⟨by simp, ⟨hpins, by simp⟩, rfl, rfl⟩
    | iLog k =>
      rw [ht] at hm hpins
      simp only [BufSys.moves] at hm
      split_ifs at hm with hk
      obtain rfl := Option.some.inj hm
      refine ⟨by simp, Eq.trans hpins (List.drop_eq_nil_of_le (by omega)), rfl, rfl⟩
    | _ =>
      rw [ht] at hm
      exact absurd hm (by simp [BufSys.moves])
  obtain ⟨huser, hat, hindex, hbufs⟩ := hgoal
  refine h.of_client hi hp rfl ⟨rfl, rfl⟩ rfl rfl rfl rfl (fun j _ hj => hi.identity hact hj) rfl
    huser hat (fun k hk => ?_) (fun j x hj => ?_) ?_ (fun j _ hj => ?_) (fun d b i _ hasked => ?_)
  · rw [hindex] at hk
    exact absurd hk (by simp)
  · rw [hbufs] at hj
    exact absurd hj List.not_mem_nil
  · rw [hbufs]
    exact List.nodup_nil
  · rw [hcall] at hj
    exact absurd hj (by simp)
  · rw [hcall] at hasked
    exact absurd hasked (by simp)

/-- **The commit, step by step.** -/
theorem step (hi : CacheInv s) (hp : p < NPROC) (hact : s.Acts p a s') : CommitInv s' := by
  have hact' := hact
  cases hact with
  | bread _ d b hcall hreq =>
    exact h.bread hi hp hact' hcall (hreq.imp And.right And.right)
  | lock d b i hcall hfree =>
    refine h.of_task hi hp hact' rfl ⟨rfl, rfl⟩ rfl rfl rfl rfl rfl rfl
      (fun j x hj => Or.inl (h.held_of_bufs (by simp [hcall]) hj))
      (fun j _ hj => absurd hj (by simp)) (fun e x j ht hasked => h.asked p e x j ht ?_)
    rw [hcall]
    exact hasked
  | fill d b i hcall _ => exact h.gotAct hi hp hcall CacheInv.alike_update
  | found d b i hcall _ => exact h.gotAct hi hp hcall (CacheInv.Alike.refl _)
  | store _ i data t hcall ht =>
    refine h.of_follows hi hp hact' rfl ⟨rfl, rfl⟩ rfl rfl rfl rfl rfl hcall hcall ?_ rfl
    rcases ht with ⟨-, htask, rfl, -⟩ | ⟨-, ht⟩
    · exact htask ▸ follows_refl _
    · exact CommitPc.follows_of_stores ht
  | bwrite _ i t hcall ht =>
    have hf : (s.client p).task.Follows t := by
      rcases ht with ⟨-, htask, rfl⟩ | ⟨-, ht⟩
      · exact htask ▸ follows_refl _
      · exact CommitPc.follows_of_writes ht
    by_cases hl : (s.bc i).lock = some p
    · rw [BufSys.bwrite, if_pos hl] at hact' ⊢
      exact h.of_follows hi hp hact' rfl ⟨rfl, rfl⟩ rfl rfl rfl rfl rfl hcall hcall hf rfl
    · rw [BufSys.bwrite, if_neg hl]
      exact h.panic _
  | brelse _ i hcall hrel => exact h.brelse hi hp hact' hcall (hrel.imp And.right And.right)
  | drop i hcall =>
    refine h.of_client hi hp rfl ⟨rfl, rfl⟩ rfl rfl rfl rfl (fun j _ hj => hi.identity hact' hj) rfl
      CommitPc.dropped_eq_user (h.pins p).dropped
      (fun k hk => h.index p k (CommitPc.index_dropped hk)) (fun j x hj => ?_)
      (distinct_dropped (h.distinct p)) (fun j _ hj => absurd hj (by simp))
      (fun e x j _ hj => absurd hj (by simp))
    obtain ⟨hmem, hne⟩ := bufs_dropped hj (h.distinct p)
    obtain ⟨hown, hd, hb⟩ := h.bufs p j x hmem
    have hsame := hi.identity hact' (hi.refcnt_pos (CacheInv.refs_pos_of_owns hown))
    refine ⟨Or.inl (hown.resolve_right fun hdrop => ?_), hsame.1.trans hd, hsame.2.trans hb⟩
    have ht : (s.client p).task ≠ .user := by
      intro ht
      rw [ht] at hmem
      exact absurd hmem (by simp [BufSys.bufs])
    exact hne j (h.dropping p j ht hdrop) rfl
  | logWrite i => exact h.logWrite hi hp hact'
  | bpin | bunpin =>
    exact h.of_task hi hp hact' rfl ⟨rfl, rfl⟩ rfl rfl rfl rfl rfl rfl
      (fun j x hj => (h.bufs p j x hj).1) (h.dropping p) (h.asked p)
  | beginOp hfree hop hc _ =>
    refine h.of_idle hp rfl ?_ hc h.nodup (h.idle hc) (fun q _ => h.task_user hc q)
      (h.task_user hc p)
    rw [hop]
    simp [BufSys.setClient]
  | endOp hfree hop => exact h.endOp hp hfree hop
  | move t hcall hm => exact h.move hi hp hact' hcall hm
  | unpin k lbuf dbuf hcall ht =>
    have htask : (s.client p).task ≠ .user := by simp [ht]
    have hcomm := h.committing p htask
    refine h.of_committer hp rfl rfl (h.quiet hcomm) hcomm h.nodup (h.other_user htask) hcall ?_
      (fun j hj => h.index p j ?_) (fun j x hj => ?_) ?_
    · obtain ⟨hpins, -⟩ := h.pins_eq ht
      change s.logPins.erase _ = s.lh.drop (k + 1)
      rw [hpins, List.erase_cons_head]
    · rw [ht]
      exact hj
    · obtain ⟨hown, hd, hb⟩ := h.bufs p j x (by rw [ht]; exact hj)
      have hsame := hi.identity hact' (hi.refcnt_pos (CacheInv.refs_pos_of_owns hown))
      exact ⟨hown, hsame.1.trans hd, hsame.2.trans hb⟩
    · have hdistinct := h.distinct p
      rw [ht] at hdistinct
      exact hdistinct
  | clear hcall ht =>
    have htask : (s.client p).task ≠ .user := by simp [ht]
    have hcomm := h.committing p htask
    have hpins := h.pins p
    rw [ht] at hpins
    exact h.of_committer hp rfl rfl (h.quiet hcomm) hcomm List.nodup_nil (h.other_user htask) hcall
      ⟨hpins, fun _ => rfl⟩ (fun j hj => absurd hj (by simp [CommitPc.index]))
      (fun i b hb => absurd hb (by simp [BufSys.bufs])) List.nodup_nil
  | finish hcall ht =>
    have htask : (s.client p).task ≠ .user := by simp [ht]
    have hpins := h.pins p
    rw [ht] at hpins
    exact h.of_idle hp rfl rfl rfl h.nodup hpins.1 (h.other_user htask) rfl

end

end CommitInv

end Xv6
