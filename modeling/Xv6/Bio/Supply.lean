import Xv6.Bio.Install

/-!
# A commit finds a buffer

During a commit nobody but the committing process uses the cache, and between the rounds of its loops
it holds no buffer itself.  So the buffers in use are those that the log has pinned, one for each
logged block, and a buffer for a log block is free unless all `NBUF` buffers are pinned.

`LOGBLOCKS` is `NBUF`: three operations of `MAXOPBLOCKS` blocks each pin all of them.
-/

namespace Xv6

open Finset Function

/-- Processes read buffers inside of operations only, log at most `MAXOPBLOCKS` distinct blocks of
the log's device in each, pin nothing themselves, and have released their buffers when they call
`end_op`. -/
def CommitUse (s : BufSys) : BufStep → Prop
  | .bread p _ _ => (s.client p).inOp = true
  | .logWrite p i => (s.bc i).dev = s.dev ∧
      (insert (s.bc i).blockno (s.client p).logged.toFinset).card ≤ MAXOPBLOCKS
  | .bpin _ _ => False
  | .endOp p => (s.client p).held = []
  | _ => True

instance (s : BufSys) : ∀ a, Decidable (CommitUse s a)
  | .bread p _ _ => inferInstanceAs (Decidable ((s.client p).inOp = true))
  | .logWrite .. => inferInstanceAs (Decidable (_ ∧ _))
  | .bpin .. => .isFalse id
  | .endOp p => inferInstanceAs (Decidable ((s.client p).held = []))
  | .go _ | .modify .. | .bwrite .. | .brelse .. | .bunpin .. | .beginOp _ => .isTrue trivial

/-- No transaction grows to `NBUF` blocks. -/
def LeavesBuffer (s : BufSys) : BufStep → Prop
  | .logWrite _ i => (s.bc i).blockno ∈ s.lh ∨ s.lh.length + 1 < NBUF
  | _ => True

/-- Who has buffers. -/
structure UserInv (s : BufSys) : Prop where
  pins : ∀ p, (s.client p).pins = []
  dropping : ∀ p i, (s.client p).call = .dropping i → i ∉ (s.client p).held
  quiet : ∀ p, (s.client p).inOp = false → (s.client p).task = .user →
    (s.client p).call = .none ∧ (s.client p).held = []
  bufs : ∀ p i, (s.client p).task ≠ .user → i ∈ (s.client p).held →
    ∃ b, (i, b) ∈ s.bufs (s.client p).task
  room : s.lh.length < NBUF

namespace UserInv

variable {s s' : BufSys} {p i : ℕ} {c : Client} {a : BufStep}

lemma panic (h : UserInv s) (msg : String) : UserInv (s.panic msg) :=
  ⟨h.pins, h.dropping, h.quiet, h.bufs, h.room⟩

/-- What a step of process `p` has to establish. -/
lemma of_client (h : UserInv s) (hclient : s'.client = update s.client p c)
    (hlh : s'.lh.length < NBUF)
    (hother : ∀ q ≠ p, (s.client q).task ≠ .user → ∀ i b, (i, b) ∈ s.bufs (s.client q).task →
      (i, b) ∈ s'.bufs (s.client q).task)
    (hpins : c.pins = []) (hdrop : ∀ i, c.call = .dropping i → i ∉ c.held)
    (hquiet : c.inOp = false → c.task = .user → c.call = .none ∧ c.held = [])
    (hbufs : ∀ i, c.task ≠ .user → i ∈ c.held → ∃ b, (i, b) ∈ s'.bufs c.task) : UserInv s' := by
  have hself : s'.client p = c := by rw [hclient, update_self]
  have hne : ∀ q ≠ p, s'.client q = s.client q := fun q hq => by
    rw [hclient, update_of_ne hq]
  refine ⟨fun q => ?_, fun q => ?_, fun q => ?_, fun q => ?_, hlh⟩
  · by_cases hqp : q = p
    · rw [hqp, hself, hpins]
    · rw [hne q hqp, h.pins]
  · by_cases hqp : q = p
    · rw [hqp, hself]
      exact hdrop
    · rw [hne q hqp]
      exact h.dropping q
  · by_cases hqp : q = p
    · rw [hqp, hself]
      exact hquiet
    · rw [hne q hqp]
      exact h.quiet q
  · by_cases hqp : q = p
    · rw [hqp, hself]
      exact hbufs
    · rw [hne q hqp]
      intro i hq hi
      obtain ⟨b, hb⟩ := h.bufs q i hq hi
      exact ⟨b, hother q hqp hq i b hb⟩

/-- The same, if the log's list stays as it is. -/
lemma of_same (h : UserInv s) (hclient : s'.client = update s.client p c)
    (hlh : s'.lh = s.lh) (hstart : s'.start = s.start) (hpins : c.pins = (s.client p).pins)
    (hdrop : ∀ i, c.call = .dropping i → i ∉ c.held)
    (hquiet : c.inOp = false → c.task = .user → c.call = .none ∧ c.held = [])
    (hbufs : ∀ i, c.task ≠ .user → i ∈ c.held → ∃ b, (i, b) ∈ s.bufs c.task) : UserInv s' := by
  have hsame : ∀ t, s'.bufs t = s.bufs t := by
    intro t
    cases t <;> simp only [BufSys.bufs, hlh, hstart]
  refine h.of_client hclient (hlh ▸ h.room) (fun q _ _ i b hb => (hsame _).symm ▸ hb)
    (hpins.trans (h.pins p)) hdrop hquiet fun i ht hi => ?_
  rw [hsame]
  exact hbufs i ht hi

/-- A step that leaves the process its buffers. -/
lemma of_task (h : UserInv s) {t : CommitPc} (hclient : s'.client = update s.client p c)
    (hlh : s'.lh = s.lh) (hstart : s'.start = s.start)
    (hc : c.call = (s.client p).call ∧ c.held = (s.client p).held ∧ c.pins = (s.client p).pins ∧
      c.task = t)
    (hop : c.inOp = false → (s.client p).inOp = false)
    (ht : t = .user ↔ (s.client p).task = .user) (hb : s.bufs t = s.bufs (s.client p).task) :
    UserInv s' := by
  obtain ⟨hcall, hheld, hpins, rfl⟩ := hc
  refine h.of_same hclient hlh hstart hpins (fun i hi => ?_) (fun ho hu => ?_) (fun i hu hi => ?_)
  · rw [hheld]
    exact h.dropping p i (hcall ▸ hi)
  · rw [hcall, hheld]
    exact h.quiet p (hop ho) (ht.mp hu)
  · rw [hb]
    exact h.bufs p i (fun htu => hu (ht.mpr htu)) (hheld ▸ hi)

lemma bufs_got_of_request {t : CommitPc} {x : ℕ × ℕ} (ht : s.request t = some x) :
    s.bufs (t.got i) = s.bufs t ++ [(i, x.2)] := by
  rcases CommitInv.bufs_got (i := i) (Or.inr ht) with heq | ⟨-, heq⟩
  · revert heq ht
    cases t <;> simp [BufSys.request, CommitPc.got, BufSys.bufs]
  · exact heq

/-- `bread` returns. -/
lemma got (h : UserInv s) (hc : CommitInv s) {bc : Bcache} {d b : ℕ}
    (hcall : (s.client p).call = .reading d b i) :
    UserInv ({ s with bc := bc }.setClient p { s.client p with
      call := .none, held := i :: (s.client p).held, task := (s.client p).task.got i }) := by
  refine h.of_same rfl rfl rfl rfl (fun j hj => absurd hj (by simp)) (fun ho hu => ?_)
    (fun j hu hj => ?_)
  · have := (h.quiet p ho (CommitPc.got_eq_user.mp hu)).1
    rw [hcall] at this
    exact absurd this (by simp)
  · have ht : (s.client p).task ≠ .user := fun htu => hu (CommitPc.got_eq_user.mpr htu)
    have hreq := hc.asked p d b i ht (by rw [hcall]; rfl)
    dsimp only
    rw [bufs_got_of_request hreq]
    rcases List.mem_cons.mp hj with rfl | hj
    · exact ⟨b, List.mem_append_right _ (List.mem_singleton_self _)⟩
    · obtain ⟨x, hx⟩ := h.bufs p j ht hj
      exact ⟨x, List.mem_append_left _ hx⟩

/-- The buffers of `commit()` but the one that it releases. -/
lemma mem_bufs_dropped {t : CommitPc} {j b : ℕ} (hrel : t.releases = some i) (hj : j ≠ i)
    (hb : (j, b) ∈ s.bufs t) : (j, b) ∈ s.bufs t.dropped := by
  cases t with
  | hDrop last c =>
    simp_all [BufSys.bufs]
  | _ => simp_all [BufSys.bufs, CommitPc.dropped]

lemma held_nil (h : UserInv s) (ht : (s.client p).task ≠ .user)
    (hb : s.bufs (s.client p).task = []) : (s.client p).held = [] := by
  refine List.eq_nil_iff_forall_not_mem.mpr fun i hi => ?_
  obtain ⟨b, hmem⟩ := h.bufs p i ht hi
  rw [hb] at hmem
  exact absurd hmem List.not_mem_nil

lemma bufs_of_moves {t t' : CommitPc} (h : s.moves t = some t') :
    t ≠ .user ∧ s.bufs t = [] ∧ t' ≠ .user := by
  cases t <;> simp only [BufSys.moves, Option.some.injEq, reduceCtorEq] at h
  all_goals
    split_ifs at h
    all_goals
      cases h
      exact ⟨by simp, rfl, by simp⟩

/-- **The users of the cache, step by step.** -/
theorem step (h : UserInv s) (hi : CacheInv s) (hc : CommitInv s) (hact : s.Acts p a s')
    (hbread : ∀ d b, a = .bread p d b → (s.client p).inOp = true)
    (hpin : ∀ i, a ≠ .bpin p i) (hend : a = .endOp p → (s.client p).held = [])
    (hroom : ∀ i, a = .logWrite p i → (s.bc i).blockno ∈ s.lh ∨ s.lh.length + 1 < NBUF) :
    UserInv s' := by
  cases hact with
  | bread _ d b hcall hreq =>
    rw [BufSys.bread]
    split
    · refine h.of_same rfl rfl rfl rfl (fun j hj => absurd hj (by simp)) (fun ho hu => ?_)
        (h.bufs p)
      rcases hreq with ⟨ha, -⟩ | ⟨-, hreq⟩
      · exact absurd ((hbread d b ha).symm.trans ho) (by simp)
      · have hu : (s.client p).task = .user := hu
        rw [hu] at hreq
        exact absurd hreq (by simp [BufSys.request])
    · exact h.panic _
  | lock d b i hcall _ =>
    refine h.of_same rfl rfl rfl rfl (fun j hj => absurd hj (by simp)) (fun ho hu => ?_) (h.bufs p)
    have := (h.quiet p ho hu).1
    rw [hcall] at this
    exact absurd this (by simp)
  | fill d b i hcall _ => exact h.got hc hcall
  | found d b i hcall _ => exact h.got hc hcall
  | store _ i data t hcall ht =>
    have hf : (s.client p).task.Follows t := by
      rcases ht with ⟨-, htask, rfl, -⟩ | ⟨-, ht⟩
      · exact htask ▸ CommitInv.follows_refl _
      · exact CommitPc.follows_of_stores ht
    exact h.of_task rfl rfl rfl ⟨rfl, rfl, rfl, rfl⟩ id hf.user (hf.bufs s)
  | bwrite _ i t hcall ht =>
    have hf : (s.client p).task.Follows t := by
      rcases ht with ⟨-, htask, rfl⟩ | ⟨-, ht⟩
      · exact htask ▸ CommitInv.follows_refl _
      · exact CommitPc.follows_of_writes ht
    rw [BufSys.bwrite]
    split_ifs
    · exact h.of_task rfl rfl rfl ⟨rfl, rfl, rfl, rfl⟩ id hf.user (hf.bufs s)
    · exact h.panic _
  | brelse _ i hcall ht =>
    rw [BufSys.brelse]
    split_ifs with hlock
    · have hheld := hi.held_of_lock hcall hlock
      refine h.of_same rfl rfl rfl rfl (fun j hj => ?_) (fun ho hu => ?_)
        (fun j hu hj => h.bufs p j hu (List.mem_of_mem_erase hj))
      · obtain rfl : i = j := by simpa using hj
        exact (hi.nodup p).not_mem_erase
      · have := (h.quiet p ho hu).2
        rw [this] at hheld
        exact absurd hheld List.not_mem_nil
    · exact h.panic _
  | drop i hcall =>
    refine h.of_same rfl rfl rfl rfl (fun j hj => absurd hj (by simp)) (fun ho hu => ?_)
      (fun j hu hj => ?_)
    · have := (h.quiet p ho (CommitPc.dropped_eq_user.mp hu)).1
      rw [hcall] at this
      exact absurd this (by simp)
    · have ht : (s.client p).task ≠ .user := fun htu => hu (CommitPc.dropped_eq_user.mpr htu)
      obtain ⟨b, hb⟩ := h.bufs p j ht hj
      have hji : j ≠ i := fun hji => h.dropping p i hcall (hji ▸ hj)
      exact ⟨b, mem_bufs_dropped (hc.dropping p i ht hcall) hji hb⟩
  | logWrite i hfree hheld =>
    rw [BufSys.logWrite]
    dsimp only
    split_ifs with hfull hout habs
    · exact h.panic _
    · exact h.panic _
    · exact h.of_task rfl rfl rfl ⟨rfl, rfl, rfl, rfl⟩ id Iff.rfl rfl
    · have hcomm := hc.not_committing (by omega)
      refine h.of_client rfl ?_ (fun q _ hq => absurd (hc.task_user hcomm q) hq) (h.pins p)
        (h.dropping p) (h.quiet p) fun j hu => absurd hfree.2 hu
      have := (hroom i rfl).resolve_left habs
      simpa [BufSys.setClient] using this
  | bpin i => exact absurd rfl (hpin i)
  | bunpin i _ hi' =>
    rw [h.pins] at hi'
    exact absurd hi' List.not_mem_nil
  | beginOp => exact h.of_task rfl rfl rfl ⟨rfl, rfl, rfl, rfl⟩ (by simp) Iff.rfl rfl
  | endOp hfree hop =>
    have hheld := hend rfl
    rw [BufSys.endOp]
    dsimp only
    split_ifs
    · exact ⟨h.pins, h.dropping, h.quiet, h.bufs, h.room⟩
    · refine h.of_same rfl rfl rfl rfl (h.dropping p) (fun _ _ => ⟨hfree.1, hheld⟩)
        (fun j _ hj => ?_)
      rw [hheld] at hj
      exact absurd hj List.not_mem_nil
    · exact h.of_same rfl rfl rfl rfl (h.dropping p) (fun _ _ => ⟨hfree.1, hheld⟩) (h.bufs p)
  | move t hcall hm =>
    obtain ⟨ht, hb, hu⟩ := bufs_of_moves hm
    have hheld := h.held_nil ht hb
    refine h.of_same rfl rfl rfl rfl (h.dropping p) (fun _ htu => absurd htu hu) (fun j _ hj => ?_)
    rw [hheld] at hj
    exact absurd hj List.not_mem_nil
  | unpin k lbuf dbuf _ ht =>
    exact h.of_task rfl rfl rfl ⟨rfl, rfl, rfl, rfl⟩ id (by simp [ht]) (by rw [ht]; rfl)
  | clear hcall ht =>
    have htask : (s.client p).task ≠ .user := by simp [ht]
    have hheld := h.held_nil htask (by rw [ht]; rfl)
    refine h.of_client rfl (show 0 < NBUF by decide) (fun q hq hu => absurd (hc.other_user htask q hq) hu)
      (h.pins p) (h.dropping p) (fun _ htu => absurd htu (by simp)) (fun j _ hj => ?_)
    rw [hheld] at hj
    exact absurd hj List.not_mem_nil
  | finish hcall ht =>
    have hheld := h.held_nil (p := p) (by simp [ht]) (by rw [ht]; rfl)
    exact h.of_same rfl rfl rfl rfl (h.dropping p) (fun _ _ => ⟨hcall, hheld⟩)
      fun j hu => absurd rfl hu

/-- Between the rounds of its loops the committing process has no reference, and nobody else has. -/
lemma refs_eq_zero (h : UserInv s) (hi : CacheInv s) (hc : CommitInv s)
    (ht : (s.client p).task ≠ .user) (hcall : (s.client p).call = .none)
    (hb : s.bufs (s.client p).task = []) (q i : ℕ) : (s.client q).refs i = 0 := by
  have hzero : ∀ c : Client, c.call = .none → c.held = [] → c.pins = [] → c.refs i = 0 := by
    intro c h₁ h₂ h₃
    simp [Client.refs, h₁, h₂, h₃]
  by_cases hqp : q = p
  · rw [hqp]
    exact hzero _ hcall (h.held_nil ht hb) (h.pins p)
  · by_cases hq : q < NPROC
    · have hop : (s.client q).inOp = false := by
        by_contra hop
        have hone := hc.one_le_outstanding hq (by simpa using hop)
        rw [hc.quiet (hc.committing p ht)] at hone
        exact absurd hone (by simp)
      have hquiet := h.quiet q hop (hc.other_user ht q hqp)
      exact hzero _ hquiet.1 hquiet.2 (h.pins q)
    · exact hi.outside q i (by omega)

/-- So a buffer is free unless the log has pinned them all. -/
lemma exists_free (h : UserInv s) (hi : CacheInv s) (hc : CommitInv s)
    (ht : (s.client p).task ≠ .user) (hcall : (s.client p).call = .none)
    (hb : s.bufs (s.client p).task = []) (hlen : s.logPins.length < NBUF) :
    ∃ i < NBUF, (s.bc i).refcnt = 0 := by
  by_contra hall
  push Not at hall
  have hpinned : ∀ i < NBUF, s.LogPinned i := by
    intro i hlt
    by_contra hne
    have hlog : s.logRef i = 0 := if_neg hne
    have hproc : s.procRefs i = 0 :=
      sum_eq_zero fun q _ => h.refs_eq_zero hi hc ht hcall hb q i
    have href := hi.ref i hlt
    rw [hproc, hlog] at href
    exact hall i hlt href
  have hcard : (range NBUF).card ≤ s.logPins.toFinset.card := by
    refine card_le_card_of_injOn (fun i => (s.bc i).blockno) (fun i hmem => ?_)
      (fun i hmem j hmem' heq => ?_)
    · exact List.mem_toFinset.mpr (hpinned i (mem_range.mp hmem)).2
    · have hlt := mem_range.mp hmem
      have hlt' := mem_range.mp hmem'
      exact hi.uniq i j s.dev _ hi.dev_ne ⟨hlt, (hpinned i hlt).1, rfl⟩
        ⟨hlt', (hpinned j hlt').1, heq.symm⟩
  have hle := s.logPins.toFinset_card_le
  rw [card_range] at hcard
  omega

lemma of_booted (h : CacheBooted s) : UserInv s := by
  refine ⟨fun p => ?_, fun p i hp => ?_, fun p _ _ => ?_, fun p i _ hp => ?_, ?_⟩
  · rw [h.client, Client.idle]
  · rw [h.client] at hp
    exact absurd hp (by simp [Client.idle])
  · rw [h.client, Client.idle]
    exact ⟨rfl, rfl⟩
  · rw [h.client] at hp
    exact absurd hp List.not_mem_nil
  · rw [h.lh]
    decide

end UserInv

/-- What `commit()` asks for is cached, or a buffer is free. -/
lemma bread_supplied {s : BufSys} {p d b : ℕ} (h : UserInv s) (hi : CacheInv s) (hc : CommitInv s)
    (hcall : (s.client p).call = .none) (hreq : s.request (s.client p).task = some (d, b)) :
    (∃ i, s.bc.Caches i d b) ∨ ∃ i < NBUF, (s.bc i).refcnt = 0 := by
  have hpins := hc.pins p
  have hroom := h.room
  cases ht : (s.client p).task with
  | wTo k =>
    rw [ht] at hpins
    refine Or.inr (h.exists_free hi hc (p := p) (by simp [ht]) hcall (by rw [ht]; rfl) ?_)
    rw [show s.logPins = s.lh from hpins]
    exact hroom
  | hGet last =>
    rw [ht] at hpins
    refine Or.inr (h.exists_free hi hc (p := p) (by simp [ht]) hcall (by rw [ht]; rfl) ?_)
    rw [show s.logPins = s.lh from hpins.1]
    exact hroom
  | iLog k =>
    rw [ht] at hpins
    refine Or.inr (h.exists_free hi hc (p := p) (by simp [ht]) hcall (by rw [ht]; rfl) ?_)
    rw [show s.logPins = s.lh.drop k from hpins, List.length_drop]
    omega
  | wFrom k tbuf =>
    have hk := hc.index p k (by rw [ht]; rfl)
    rw [ht] at hpins hreq
    obtain ⟨rfl, rfl⟩ := Prod.mk.inj (Option.some.inj hreq)
    refine Or.inl (hi.pinned _ ?_)
    rw [show s.logPins = s.lh from hpins, List.getD_eq_getElem?_getD, List.getElem?_eq_getElem hk]
    exact List.getElem_mem hk
  | iHome k lbuf =>
    have hk := hc.index p k (by rw [ht]; rfl)
    rw [ht] at hpins hreq
    obtain ⟨rfl, rfl⟩ := Prod.mk.inj (Option.some.inj hreq)
    refine Or.inl (hi.pinned _ ?_)
    rw [show s.logPins = s.lh.drop k from hpins, List.drop_eq_getElem_cons hk,
      List.getD_eq_getElem?_getD, List.getElem?_eq_getElem hk]
    exact List.mem_cons_self
  | _ =>
    rw [ht] at hreq
    exact absurd hreq (by simp [BufSys.request])

lemma commit_of_request {s : BufSys} {p d b : ℕ} {t : CommitPc} (h : s.request t = some (d, b)) :
    s.commit p t = some (s.bread p d b) := by
  cases t with
  | wTo k | iLog k =>
    simp only [BufSys.request] at h
    split_ifs at h with hk
    obtain ⟨rfl, rfl⟩ := Prod.mk.inj (Option.some.inj h)
    simp [BufSys.commit, hk]
  | wFrom | iHome | hGet =>
    obtain ⟨rfl, rfl⟩ := Prod.mk.inj (Option.some.inj h)
    rfl
  | _ => exact absurd h (by simp [BufSys.request])

lemma supplyInv_step {s s' : BufSys} {a : BufStep} (h : UserInv s ∧ CacheInv s ∧ CommitInv s)
    (hok : CommitUse s a ∧ LeavesBuffer s a) (hs : s.step a = some s') :
    UserInv s' ∧ CacheInv s' ∧ CommitInv s' := by
  obtain ⟨huser, hi, hc⟩ := h
  obtain ⟨huse, hleave⟩ := hok
  obtain ⟨-, hp, hact⟩ := BufSys.acts_of_step hs
  refine ⟨huser.step hi hc hact (fun d b ha => ?_) (fun i ha => ?_) (fun ha => ?_) (fun i ha => ?_),
    hi.step hc hp hact (fun i ha => ?_), hc.step hi hp hact⟩
  · rw [ha] at huse
    exact huse
  · rw [ha] at huse
    exact huse
  · rw [ha] at huse
    exact huse
  · rw [ha] at hleave
    exact hleave
  · rw [ha] at huse
    exact huse.1

/-- **A commit finds a buffer**, if no transaction grows to `NBUF` blocks: whenever `commit()` calls
`bread`, the block is cached or a buffer is unused, and `bget` does not panic. -/
theorem commit_finds_buffer (s₀ s : BufSys) (as : List BufStep) (hboot : CacheBooted s₀)
    (hrun : run BufSys.step s₀ as = some s) (huse : StepsOk BufSys.step CommitUse s₀ as)
    (hleave : StepsOk BufSys.step LeavesBuffer s₀ as) (p d b : ℕ)
    (hcall : (s.client p).call = .none) (hreq : s.request (s.client p).task = some (d, b)) :
    ((∃ i, s.bc.Caches i d b) ∨ ∃ i < NBUF, (s.bc i).refcnt = 0) ∧
      ∀ s', s.step (.go p) = some s' → s'.panicked = none := by
  have hboot' := BufInv.of_booted hboot
  obtain ⟨huser, hi, hc⟩ : UserInv s ∧ CacheInv s ∧ CommitInv s :=
    run_invariant_of_stepsOk (fun _ _ _ hinv hok hs => supplyInv_step hinv hok hs)
      ⟨UserInv.of_booted hboot, hboot'.cache, hboot'.commit⟩ (huse.and hleave) hrun
  have hsupply := bread_supplied huser hi hc hcall hreq
  refine ⟨hsupply, fun s' hs => ?_⟩
  have hgo : s' = s.bread p d b ∧ s.panicked = none := by
    unfold BufSys.step at hs
    split_ifs at hs with hen
    simp only [BufSys.go, hcall, commit_of_request hreq, Option.some.injEq] at hs
    exact ⟨hs.symm, hen.1⟩
  rw [hgo.1, BufSys.bread]
  split
  · exact hgo.2
  · rename_i hget
    obtain ⟨l, hl⟩ := hi.order
    obtain ⟨hmiss, hused⟩ := hl.bget_none hget
    rcases hsupply with ⟨i, hcached⟩ | ⟨i, hlt, hz⟩
    · exact absurd hcached (hmiss i)
    · exact absurd hz (hused i hlt)

/-- Process `p` reads block `b` into buffer `i`, logs and releases it. -/
def logsBlock (p i b : ℕ) : List BufStep :=
  [.bread p ROOTDEV b, .go p, .go p, .logWrite p i, .brelse p i, .go p]

/-- `n` operations log ten blocks each and end; the last one commits, up to its first `bread`. -/
def bigTransaction (n : ℕ) : List BufStep :=
  (List.range n).map .beginOp ++
    (List.range (n * MAXOPBLOCKS)).flatMap (fun i => logsBlock (i / MAXOPBLOCKS) i (50 + i)) ++
    (List.range n).map .endOp ++ [.go (n - 1)]

instance (s : BufSys) : ∀ a, Decidable (LeavesBuffer s a)
  | .logWrite .. => inferInstanceAs (Decidable (_ ∨ _))
  | .bread .. | .go _ | .modify .. | .bwrite .. | .brelse .. | .bpin .. | .bunpin .. | .beginOp _
  | .endOp _ => .isTrue trivial

set_option maxRecDepth 10000 in
/-- Three operations of `MAXOPBLOCKS` blocks each are admitted together; when they commit, every
buffer is pinned and `write_log` panics in `bget`. -/
theorem commit_out_of_buffers : ∃ s, run BufSys.step bootCache (bigTransaction 3) = some s ∧
    StepsOk BufSys.step CommitUse bootCache (bigTransaction 3) ∧
    (s.client 2).task = .wTo 0 ∧ (s.client 2).call = .none ∧
    (s.step (.go 2)).bind BufSys.panicked = some "bget: no buffers" := by
  have h : RunsTo BufSys.step CommitUse (fun s : BufSys => (s.client 2).task = .wTo 0 ∧
      (s.client 2).call = .none ∧
      (s.step (.go 2)).bind BufSys.panicked = some "bget: no buffers")
      bootCache (bigTransaction 3) := by decide +kernel
  exact h.exists_run

set_option maxRecDepth 10000 in
/-- Two such operations leave buffers for their commit. -/
theorem commit_finds_buffer_two : ∃ s, run BufSys.step bootCache (bigTransaction 2) = some s ∧
    (s.client 1).task = .wTo 0 ∧ ∀ s', s.step (.go 1) = some s' → s'.panicked = none := by
  have h : RunsTo BufSys.step (fun s a => CommitUse s a ∧ LeavesBuffer s a)
      (fun s : BufSys => (s.client 1).task = .wTo 0 ∧ (s.client 1).call = .none ∧
        s.request (s.client 1).task = some (1, 3)) bootCache (bigTransaction 2) := by
    decide +kernel
  obtain ⟨s, hrun, hok, htask, hcall, hreq⟩ := h.exists_run
  refine ⟨s, hrun, htask, ?_⟩
  exact (commit_finds_buffer bootCache s _ bootCache_booted hrun (hok.imp fun _ _ h => h.1)
    (hok.imp fun _ _ h => h.2) 1 1 3 hcall hreq).2

end Xv6
