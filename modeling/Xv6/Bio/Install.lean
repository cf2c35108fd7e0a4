import Xv6.Bio.Coherent

/-!
# The buffer cache: what the log copies

`write_log` copies the logged blocks to the log and `install_trans` copies them back.  If processes
store into buffers only inside of operations, nothing is stored in a logged block between the two
copies, so that `install_trans` finds in each home buffer what it copies there: it changes the disk
and not the contents of the cache.
-/

namespace Xv6

open Function

/-- How many of the `n` logged blocks have been copied to the log and will be installed. -/
def CommitPc.copied (n : ℕ) : CommitPc → ℕ
  | .wTo k | .wFrom k _ | .wCopy k _ _ => k
  | .wWrite k _ _ | .wDropFrom k _ _ | .wDropTo k _ => k + 1
  | .hGet last | .hFill last _ | .hWrite last _ | .hDrop last _ => if last then 0 else n
  | .iLog _ | .iHome _ _ | .iCopy _ _ _ | .iWrite _ _ _ | .iUnpin _ _ _ | .iDropLog _ _ _
  | .iDropHome _ _ => n
  | _ => 0

/-- Block `b` belongs to the log: it is the header or one of the `LOGBLOCKS` blocks after it. -/
def BufSys.InLog (s : BufSys) (b : ℕ) : Prop := s.start ≤ b ∧ b ≤ s.start + LOGBLOCKS

instance (s : BufSys) (b : ℕ) : Decidable (s.InLog b) := inferInstanceAs (Decidable (_ ∧ _))

/-- Processes store into buffers only inside of operations, and do not log blocks of the log. -/
def InOperation (s : BufSys) : BufStep → Prop
  | .modify p _ _ => (s.client p).inOp = true
  | .logWrite _ i => ¬s.InLog (s.bc i).blockno
  | _ => True

instance (s : BufSys) : ∀ a, Decidable (InOperation s a)
  | .modify p _ _ => inferInstanceAs (Decidable ((s.client p).inOp = true))
  | .logWrite _ i => inferInstanceAs (Decidable (¬s.InLog (s.bc i).blockno))
  | .bread .. | .go _ | .bwrite .. | .brelse .. | .bpin .. | .bunpin .. | .beginOp _ | .endOp _ =>
    .isTrue trivial

/-- The copies in the log. -/
structure CopyInv (s : BufSys) : Prop where
  home : ∀ b ∈ s.lh, ¬s.InLog b
  size : s.lh.length ≤ LOGBLOCKS
  copies : ∀ p k, k < (s.client p).task.copied s.lh.length → k < s.lh.length →
    s.mem s.dev (s.start + k + 1) = s.mem s.dev (s.lh.getD k 0)

namespace CopyInv

variable {s s' : BufSys} {p i : ℕ} {c : Client} {a : BufStep}

/-- A step that stores nothing. -/
lemma of_same (h : CopyInv s) (hclient : s'.client = update s.client p c)
    (hdev : s'.dev = s.dev ∧ s'.start = s.start) (hlh : s'.lh = s.lh) (hmem : s'.mem = s.mem)
    (hc : ∀ k < s.lh.length, k < c.task.copied s.lh.length →
      k < (s.client p).task.copied s.lh.length) : CopyInv s' := by
  refine ⟨fun b hb => ?_, hlh ▸ h.size, fun q k hk hlt => ?_⟩
  · rw [BufSys.InLog, hdev.2]
    exact h.home b (hlh ▸ hb)
  · rw [hlh] at hk hlt
    rw [hdev.1, hdev.2, hmem, hlh]
    rw [hclient] at hk
    by_cases hqp : q = p
    · rw [hqp, update_self] at hk
      exact h.copies p k (hc k hlt hk) hlt
    · rw [update_of_ne hqp] at hk
      exact h.copies q k hk hlt

lemma panic (h : CopyInv s) (msg : String) : CopyInv (s.panic msg) := ⟨h.home, h.size, h.copies⟩

/-- While nobody commits there is nothing to show about copies. -/
lemma of_idle (hclient : s'.client = update s.client p c) (hc : c.task = .user)
    (hother : ∀ q, (s.client q).task = .user) (hhome : ∀ b ∈ s'.lh, ¬s'.InLog b)
    (hsize : s'.lh.length ≤ LOGBLOCKS) : CopyInv s' := by
  refine ⟨hhome, hsize, fun q k hk => ?_⟩
  have htask : (s'.client q).task = .user := by
    rw [hclient]
    exact (forall_update_iff s.client fun _ y => y.task = .user).mpr ⟨hc, fun q _ => hother q⟩ q
  rw [htask] at hk
  exact absurd hk (by simp [CommitPc.copied])

lemma copied_got (t : CommitPc) (n : ℕ) : (t.got i).copied n = t.copied n := by cases t <;> rfl

lemma copied_dropped (t : CommitPc) (n : ℕ) : t.dropped.copied n = t.copied n := by
  cases t with
  | hDrop last b => cases last <;> rfl
  | _ => rfl

lemma copied_of_writes {t t' : CommitPc} (h : t.writes = some (i, t')) (n : ℕ) :
    t'.copied n = t.copied n := by
  cases t <;> simp only [CommitPc.writes, Option.some.injEq, Prod.mk.injEq, reduceCtorEq] at h
  all_goals
    obtain ⟨-, rfl⟩ := h
    rfl

/-- The home block `k` is not one of the log. -/
lemma home_getD (h : CopyInv s) {k : ℕ} (hk : k < s.lh.length) : ¬s.InLog (s.lh.getD k 0) := by
  rw [List.getD_eq_getElem?_getD, List.getElem?_eq_getElem hk, Option.getD_some]
  exact h.home _ (List.getElem_mem hk)

/-- The data of a buffer of `commit()` is what was stored last in its block. -/
lemma data_eq (hi : BufInv s) (hcall : (s.client p).call = .none) {b : ℕ}
    (hb : (i, b) ∈ s.bufs (s.client p).task) : (s.bc i).data = s.mem s.dev b := by
  have hheld := hi.commit.held_of_bufs (by simp [hcall]) hb
  obtain ⟨-, hd, hblk⟩ := hi.commit.bufs p i b hb
  rw [hi.data.data i (hi.cache.lt_of_held hheld) (hi.data.held p i hheld), hd, hblk]

/-- What `install_trans` copies into a home buffer is there already. -/
lemma copy_eq (h : CopyInv s) (hi : BufInv s) (hcall : (s.client p).call = .none) {k lbuf dbuf : ℕ}
    (ht : (s.client p).task = .iCopy k lbuf dbuf) : (s.bc lbuf).data = (s.bc dbuf).data := by
  have hk := hi.commit.index p k (by rw [ht]; rfl)
  rw [data_eq (b := s.start + k + 1) hi hcall (by rw [ht]; simp [BufSys.bufs]),
    data_eq (b := s.lh.getD k 0) hi hcall (by rw [ht]; simp [BufSys.bufs])]
  exact h.copies p k (by rw [ht]; exact hk) hk

/-- `commit()` stores. -/
lemma stores (h : CopyInv s) (hi : BufInv s) (hcall : (s.client p).call = .none) {x : Block}
    {t : CommitPc} (ht : s.stores (s.client p).task = some (i, x, t)) :
    CopyInv ((s.store i x).setTask p t) := by
  have hmem : ∀ b, ((s.store i x).setTask p t).mem s.dev b =
      if (s.bc i).dev = s.dev ∧ (s.bc i).blockno = b then x else s.mem s.dev b :=
    DataInv.update_block s.mem (s.bc i) x s.dev
  have hsize := h.size
  refine ⟨h.home, h.size, fun q k hk hlt => ?_⟩
  change ((s.store i x).setTask p t).mem s.dev (s.start + k + 1) =
    ((s.store i x).setTask p t).mem s.dev (s.lh.getD k 0)
  change k < s.lh.length at hlt
  have huser : (s.client p).task ≠ .user := fun hu => by
    rw [hu] at ht
    exact absurd ht (by simp [BufSys.stores])
  obtain rfl : q = p := by
    by_contra hqp
    have hother : ((s.store i x).setTask p t).client q = s.client q := update_of_ne hqp ..
    rw [hother, hi.commit.other_user huser q hqp] at hk
    exact absurd hk (by simp [CommitPc.copied])
  have hself : ((s.store i x).setTask q t).client q = { s.client q with task := t } :=
    update_self ..
  rw [hself] at hk
  change k < t.copied s.lh.length at hk
  have hhome := h.home_getD hlt
  rw [BufSys.InLog] at hhome
  cases htask : (s.client q).task with
  | wCopy n tbuf fbuf =>
    rw [htask] at ht
    simp only [BufSys.stores, Option.some.injEq, Prod.mk.injEq] at ht
    obtain ⟨rfl, rfl, rfl⟩ := ht
    have hn := hi.commit.index q n (by rw [htask]; rfl)
    obtain ⟨-, hd, hb⟩ := hi.commit.bufs q tbuf (s.start + n + 1) (by rw [htask]; simp [BufSys.bufs])
    have hfrom := data_eq (b := s.lh.getD n 0) hi hcall
      (by rw [htask]; simp [BufSys.bufs] : (fbuf, s.lh.getD n 0) ∈ _)
    have hother : ¬(s.dev = s.dev ∧ s.start + n + 1 = s.lh.getD k 0) := fun hne =>
      hhome ⟨by omega, by omega⟩
    rw [hmem, hmem, hd, hb, if_neg hother]
    have hkn : k < n + 1 := hk
    by_cases hkeq : k = n
    · rw [if_pos ⟨rfl, by omega⟩, hfrom, hkeq]
    · rw [if_neg (fun hne => hkeq (by omega))]
      exact h.copies q k (by rw [htask]; change k < n; omega) hlt
  | hFill last b =>
    rw [htask] at ht
    simp only [BufSys.stores, Option.some.injEq, Prod.mk.injEq] at ht
    obtain ⟨rfl, -, rfl⟩ := ht
    obtain ⟨-, hd, hb⟩ := hi.commit.bufs q b s.start (by rw [htask]; simp [BufSys.bufs])
    rw [hmem, hmem, hb, if_neg (fun hne => by omega), if_neg (fun hne => hhome ⟨by omega, by omega⟩)]
    exact h.copies q k (by rw [htask]; exact hk) hlt
  | iCopy n lbuf dbuf =>
    -- the block holds already what is stored
    have hcopy := h.copy_eq hi hcall htask
    rw [htask] at ht
    simp only [BufSys.stores, Option.some.injEq, Prod.mk.injEq] at ht
    obtain ⟨rfl, rfl, rfl⟩ := ht
    obtain ⟨-, hd, hb⟩ := hi.commit.bufs q dbuf (s.lh.getD n 0) (by rw [htask]; simp [BufSys.bufs])
    have hto := data_eq (b := s.lh.getD n 0) hi hcall
      (by rw [htask]; simp [BufSys.bufs] : (dbuf, s.lh.getD n 0) ∈ _)
    have hsame : ∀ b, ((s.store dbuf (s.bc lbuf).data).setTask q (.iWrite n lbuf dbuf)).mem s.dev b =
        s.mem s.dev b := by
      intro b
      rw [hmem]
      split_ifs with hname
      · rw [hcopy, hto, ← hb, hname.2]
      · rfl
    rw [hsame, hsame]
    exact h.copies q k (by rw [htask]; exact hk) hlt
  | _ =>
    rw [htask] at ht
    exact absurd ht (by simp [BufSys.stores])

/-- **The copies, step by step.** -/
theorem step (h : CopyInv s) (hi : BufInv s) (hp : p < NPROC) (hact : s.Acts p a s')
    (hmod : ∀ i x, a = .modify p i x → (s.client p).inOp = true)
    (hlog : ∀ i, a = .logWrite p i → ¬s.InLog (s.bc i).blockno) : CopyInv s' := by
  cases hact with
  | bread _ d b =>
    rw [BufSys.bread]
    split
    · exact h.of_same rfl ⟨rfl, rfl⟩ rfl rfl fun _ _ => id
    · exact h.panic _
  | fill | found =>
    refine h.of_same rfl ⟨rfl, rfl⟩ rfl rfl fun k _ hk => ?_
    rwa [copied_got] at hk
  | store _ i x t hcall ht =>
    rcases ht with ⟨rfl, htask, rfl, -⟩ | ⟨-, ht⟩
    · have hc := hi.commit.not_committing (hi.commit.one_le_outstanding hp (hmod i x rfl))
      exact of_idle (s := s) rfl rfl (hi.commit.task_user hc) h.home h.size
    · exact h.stores hi hcall ht
  | bwrite _ i t hcall ht =>
    rw [BufSys.bwrite]
    split_ifs
    · refine h.of_same rfl ⟨rfl, rfl⟩ rfl rfl fun k _ hk => ?_
      rcases ht with ⟨-, htask, rfl⟩ | ⟨-, ht⟩
      · exact absurd hk (by simp [CommitPc.copied])
      · rw [← copied_of_writes ht]
        exact hk
    · exact h.panic _
  | brelse =>
    rw [BufSys.brelse]
    split_ifs
    · exact h.of_same rfl ⟨rfl, rfl⟩ rfl rfl fun _ _ => id
    · exact h.panic _
  | drop =>
    refine h.of_same rfl ⟨rfl, rfl⟩ rfl rfl fun k _ hk => ?_
    rwa [copied_dropped] at hk
  | logWrite i =>
    rw [BufSys.logWrite]
    dsimp only
    split_ifs with hfull hout habs
    · exact h.panic _
    · exact h.panic _
    · exact h.of_same rfl ⟨rfl, rfl⟩ rfl rfl fun _ _ => id
    · have hc := hi.commit.not_committing (by omega)
      refine of_idle (s := s) rfl (hi.commit.task_user hc p) (hi.commit.task_user hc)
        (fun b hb => ?_) ?_
      · rcases List.mem_append.mp hb with hb | hb
        · exact h.home b hb
        · rw [List.mem_singleton.mp hb]
          exact hlog i rfl
      · simp only [BufSys.setClient, List.length_append, List.length_singleton]
        omega
  | lock | bpin | bunpin | beginOp => exact h.of_same rfl ⟨rfl, rfl⟩ rfl rfl fun _ _ => id
  | endOp =>
    rw [BufSys.endOp]
    dsimp only
    split_ifs
    · exact ⟨h.home, h.size, h.copies⟩
    · exact h.of_same rfl ⟨rfl, rfl⟩ rfl rfl fun k _ hk => absurd hk (by simp [CommitPc.copied])
    · exact h.of_same rfl ⟨rfl, rfl⟩ rfl rfl fun _ _ => id
  | move t _ hm =>
    refine h.of_same rfl ⟨rfl, rfl⟩ rfl rfl fun k hlt hk => ?_
    cases htask : (s.client p).task with
    | wTo n =>
      rw [htask] at hm
      simp only [BufSys.moves] at hm
      split_ifs at hm with hn
      change k < n
      omega
    | cTest =>
      rw [htask] at hm
      simp only [BufSys.moves, Option.some.injEq] at hm
      split_ifs at hm <;>
      · rw [← hm] at hk
        exact absurd hk (by simp [CommitPc.copied])
    | iLog n => exact hlt
    | _ =>
      rw [htask] at hm
      exact absurd hm (by simp [BufSys.moves])
  | unpin k lbuf dbuf _ ht =>
    refine h.of_same rfl ⟨rfl, rfl⟩ rfl rfl fun k _ hk => ?_
    rw [ht]
    exact hk
  | clear =>
    refine ⟨fun b hb => absurd hb List.not_mem_nil, Nat.zero_le _, fun q k _ hk => ?_⟩
    exact absurd hk (Nat.not_lt_zero k)
  | finish =>
    exact h.of_same rfl ⟨rfl, rfl⟩ rfl rfl fun k _ hk => absurd hk (by simp [CommitPc.copied])

lemma of_booted {s : BufSys} (h : CacheBooted s) : CopyInv s := by
  refine ⟨fun b hb => ?_, ?_, fun p k hk => ?_⟩
  · rw [h.lh] at hb
    exact absurd hb List.not_mem_nil
  · rw [h.lh]
    exact Nat.zero_le _
  · rw [h.client] at hk
    exact absurd hk (by simp [Client.idle, CommitPc.copied])

lemma step_of_ok {s s' : BufSys} {a : BufStep} (h : CopyInv s) (hi : BufInv s)
    (hok : InOperation s a) (hs : s.step a = some s') : CopyInv s' := by
  obtain ⟨-, hp, hact⟩ := BufSys.acts_of_step hs
  refine h.step hi hp hact (fun i x ha => ?_) (fun i ha => ?_)
  · rw [ha] at hok
    exact hok
  · rw [ha] at hok
    exact hok

end CopyInv

/-- A buffer that is held or pinned is in use. -/
lemma CacheInv.refcnt_pos_of_used {s : BufSys} (h : CacheInv s) {i : ℕ}
    (hi : (∃ p, i ∈ (s.client p).held ∨ i ∈ (s.client p).pins) ∨ i < NBUF ∧ s.LogPinned i) :
    0 < (s.bc i).refcnt := by
  rcases hi with ⟨p, hheld | hpin⟩ | ⟨hlt, hlog⟩
  · exact h.refcnt_pos (CacheInv.refs_pos_of_held hheld)
  · exact h.refcnt_pos (CacheInv.refs_pos_of_pins hpin)
  · have hone : s.logRef i = 1 := if_pos hlog
    rw [h.ref i hlt, hone]
    exact Nat.succ_pos _

/-- **The buffer cache is coherent.**  After every run in which processes write or log a buffer that
they have modified before they release it: at most one buffer holds a block; a buffer that is held
or pinned keeps its block; the buffers form one ring, from whose end `bget` takes the first unused
buffer if the block is not cached; and `bread` returns the block's buffer with what was stored last.
If processes store only inside of operations, then the log's own copies store nothing new in a home
block. -/
theorem bcache_coherent (s₀ s : BufSys) (as : List BufStep) (hboot : CacheBooted s₀)
    (hrun : run BufSys.step s₀ as = some s) (hok : StepsOk BufSys.step Disciplined s₀ as) :
    (∀ i j d b, d ≠ 0 → s.bc.Caches i d b → s.bc.Caches j d b → i = j) ∧
    (∀ i, (∃ p, i ∈ (s.client p).held ∨ i ∈ (s.client p).pins) ∨ i < NBUF ∧ s.LogPinned i →
      0 < (s.bc i).refcnt) ∧
    (∀ a s' i, s.step a = some s' → 0 < (s.bc i).refcnt →
      (s'.bc i).dev = (s.bc i).dev ∧ (s'.bc i).blockno = (s.bc i).blockno) ∧
    (∃ l, s.bc.Order l ∧ ∀ d b i bc, s.bc.bget d b = some (i, bc) → s.bc.BgetAct l d b i bc) ∧
    (∀ p d b i s', (s.client p).call = .reading d b i → s.step (.go p) = some s' →
      (s'.bc i).dev = d ∧ (s'.bc i).blockno = b ∧ (s'.bc i).lock = some p ∧
        i ∈ (s'.client p).held ∧ (s'.bc i).data = s.mem d b) ∧
    (StepsOk BufSys.step InOperation s₀ as → ∀ p k lbuf dbuf, (s.client p).call = .none →
      (s.client p).task = .iCopy k lbuf dbuf → (s.bc lbuf).data = (s.bc dbuf).data) := by
  have h : BufInv s := run_invariant_of_stepsOk (fun _ _ _ hi ha hs => hi.step ha hs)
    (BufInv.of_booted hboot) hok hrun
  obtain ⟨l, hl⟩ := h.cache.order
  refine ⟨h.cache.uniq, fun i hi => h.cache.refcnt_pos_of_used hi, fun a s' i hs hi => ?_,
    ⟨l, hl, fun d b i bc hget => hl.bget_some hget⟩,
    fun p d b i s' hcall hs => h.bread_returns hcall hs, fun hin p k lbuf dbuf hcall ht => ?_⟩
  · obtain ⟨-, -, hact⟩ := BufSys.acts_of_step hs
    exact h.cache.identity hact hi
  · obtain ⟨hinv, hcopy⟩ : BufInv s ∧ CopyInv s :=
      run_invariant_of_stepsOk (I := fun s => BufInv s ∧ CopyInv s)
        (fun _ _ _ hi ha hs => ⟨hi.1.step ha.1 hs, hi.2.step_of_ok hi.1 ha.2 hs⟩)
        ⟨BufInv.of_booted hboot, CopyInv.of_booted hboot⟩ (hok.and hin) hrun
    exact hcopy.copy_eq hinv hcall ht

/-- The cache after `binit`, over a disk of zeros. -/
def bootCache : BufSys where
  bc := Bcache.zeroed.binit
  disk := fun _ _ _ => 0
  dev := ROOTDEV
  start := 2
  lh := []
  outstanding := 0
  committing := false
  client := fun _ => Client.idle
  panicked := none
  mem := fun _ _ _ => 0
  touched := fun _ => false
  logPins := []

lemma bootCache_booted : CacheBooted bootCache where
  bc := rfl
  dev := by decide
  client := fun _ => rfl
  lh := rfl
  logPins := rfl
  outstanding := rfl
  committing := rfl
  mem := rfl
  touched := fun _ => rfl

/-- Process 0 stores into block 50 and logs it; process 1 calls `bread` and gets the lock. -/
def storeThenRead : List BufStep :=
  [.beginOp 0, .bread 0 1 50, .go 0, .go 0, .modify 0 0 (fun _ => 7), .logWrite 0 0, .brelse 0 0,
    .go 0, .bread 1 1 50, .go 1]

/-- Process 1 reads what process 0 has stored, though it is not on the disk yet. -/
theorem bcache_coherent_storeThenRead :
    ∃ s s', run BufSys.step bootCache storeThenRead = some s ∧ s.step (.go 1) = some s' ∧
      (s'.bc 0).data 0 = 7 ∧ s'.disk 1 50 0 = 0 := by
  have hrun := run_eq_some_after BufSys.step bootCache storeThenRead (by decide +kernel)
  have hstep := run_eq_some_after BufSys.step (after BufSys.step bootCache storeThenRead) [.go 1]
    (by decide +kernel)
  obtain ⟨s', hs', hnil⟩ := run_cons_eq_some.mp hstep
  have hafter := Option.some.inj hnil
  have h := bcache_coherent bootCache _ storeThenRead bootCache_booted hrun (by decide +kernel)
  obtain ⟨-, -, -, -, hread, -⟩ := h
  have hdata := (hread 1 1 50 0 s' (by decide +kernel) hs').2.2.2.2
  refine ⟨_, s', hrun, hs', ?_, ?_⟩
  · rw [hdata]
    decide +kernel
  · rw [hafter]
    decide +kernel

end Xv6
