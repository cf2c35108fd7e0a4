import Xv6.Log.GroupCommit

/-!
# The log reservation

`begin_op` admits an operation if `MAXOPBLOCKS` blocks for it and for each operation inside its
bracket still fit into the log, on top of what is listed already.  So what is listed and what the
operations may still add, together, never exceed `LOGBLOCKS` (`ReserveInv`), and the header never
overflows.

`log_write` tests for a full log before it looks for the block in the header.  A block that is
listed already takes no room, but if the log is exactly full then logging it again panics.
-/

namespace Xv6

open Finset Function

/-- The blocks that an operation has logged so far. -/
def LogOp.blocks (op : LogOp) : Finset ℕ := (op.writes.map Prod.fst).toFinset

lemma LogOp.blocks_append (op : LogOp) (b n : ℕ) :
    LogOp.blocks { op with writes := op.writes ++ [(b, n)] } = insert b op.blocks := by
  ext c
  simp [blocks]

namespace LogPc

/-- How many blocks a thread may still log in its operation. -/
def slack (l : LogPc) : ℕ :=
  match l.op with
  | none => 0
  | some op => MAXOPBLOCKS - op.blocks.card

lemma slack_of_op_eq {l l' : LogPc} (h : l'.op = l.op) : l'.slack = l.slack := by
  rw [slack, slack, h]

end LogPc

/-- What all threads together may still log. -/
def slackSum (pcs : ℕ → LogPc) : ℕ := ∑ t ∈ range NPROC, (pcs t).slack

variable {t chan : ℕ} {s s' : Threads LogShared LogPc} {a : ThreadStep LogChoice}

lemma slackSum_update (pcs : ℕ → LogPc) (ht : t < NPROC) (l : LogPc) :
    slackSum (update pcs t l) + (pcs t).slack = slackSum pcs + l.slack :=
  sum_update_add LogPc.slack pcs (mem_range.mpr ht) l

lemma slackSum_le {pcs : ℕ → LogPc} : (slackSum pcs : ℤ) ≤ opCount pcs * MAXOPBLOCKS := by
  rw [slackSum, opCount, Nat.cast_sum, sum_mul]
  refine sum_le_sum fun t _ => ?_
  unfold LogPc.slack
  cases (pcs t).op with
  | none => simp
  | some op => simp

/-- Every operation keeps to `MAXOPBLOCKS` blocks, and what they may still log fits. -/
structure ReserveInv (x : LogShared) (pcs : ℕ → LogPc) : Prop where
  budget : ∀ t op, (pcs t).op = some op → op.blocks.card ≤ MAXOPBLOCKS
  pending : ∀ t op b, (pcs t).pending = some (op, b) → (insert b op.blocks).card ≤ MAXOPBLOCKS
  room : x.lh.length + slackSum pcs ≤ LOGBLOCKS

namespace ReserveInv

variable {x x' : LogShared} {pcs : ℕ → LogPc} {t : ℕ} {l' : LogPc}

section

variable (h : ReserveInv x pcs) (ht : t < NPROC)
include h ht

/-- What a step of thread `t` to `l'` has to establish. -/
lemma move (hbudget : ∀ op, l'.op = some op → op.blocks.card ≤ MAXOPBLOCKS)
    (hpending : ∀ op b, l'.pending = some (op, b) → (insert b op.blocks).card ≤ MAXOPBLOCKS)
    (hroom : x'.lh.length + l'.slack ≤ x.lh.length + (pcs t).slack) :
    ReserveInv x' (update pcs t l') := by
  refine ⟨fun u op hu => ?_, fun u op b hu => ?_, ?_⟩
  · by_cases hut : u = t
    · subst hut
      rw [update_self] at hu
      exact hbudget op hu
    · rw [update_of_ne hut] at hu
      exact h.budget u op hu
  · by_cases hut : u = t
    · subst hut
      rw [update_self] at hu
      exact hpending op b hu
    · rw [update_of_ne hut] at hu
      exact h.pending u op b hu
  · have hsum := slackSum_update pcs ht l'
    have hold := h.room
    omega

/-- A thread goes on within its operation, or outside of one. -/
lemma keep (hop : l'.op = (pcs t).op)
    (hpending : ∀ op b, l'.pending = some (op, b) → (insert b op.blocks).card ≤ MAXOPBLOCKS)
    (hlh : x'.lh.length ≤ x.lh.length) : ReserveInv x' (update pcs t l') := by
  refine h.move ht (fun op ho => h.budget t op (hop ▸ ho)) hpending ?_
  rw [LogPc.slack_of_op_eq hop]
  omega

/-- A thread leaves its operation, or was in none. -/
lemma leave (hop : l'.op = none) (hpending : l'.pending = none) (hlh : x'.lh.length ≤ x.lh.length) :
    ReserveInv x' (update pcs t l') := by
  refine h.move ht (fun op ho => ?_) (fun op b hb => ?_) ?_
  · rw [hop] at ho
    exact absurd ho (by simp)
  · rw [hpending] at hb
    exact absurd hb (by simp)
  · have hslack : l'.slack = 0 := by rw [LogPc.slack, hop]
    omega

/-- Logging a block takes at most the room that was reserved for it. -/
lemma logs {op : LogOp} {b n : ℕ} (hl : pcs t = .lTest op b)
    (hroom : x'.lh.length = x.lh.length ∨ b ∉ op.blocks ∧ x'.lh.length = x.lh.length + 1) :
    ReserveInv x' (update pcs t
      (.lRelease { op with writes := op.writes ++ [(b, n)] })) := by
  have hcard := h.pending t op b (by rw [hl]; rfl)
  refine h.move ht (fun op' ho => ?_) (fun op' b' hb => absurd hb (by simp)) ?_
  · obtain rfl := Option.some.inj ho
    rw [LogOp.blocks_append]
    exact hcard
  · have hnew : (LogPc.lRelease { op with writes := op.writes ++ [(b, n)] }).slack =
        MAXOPBLOCKS - (insert b op.blocks).card := by
      rw [← LogOp.blocks_append op b n]
      rfl
    have hold : (pcs t).slack = MAXOPBLOCKS - op.blocks.card := by rw [hl]; rfl
    have hle : op.blocks.card ≤ (insert b op.blocks).card := card_le_card (subset_insert ..)
    rw [hnew, hold]
    rcases hroom with hsame | ⟨hb, hadd⟩
    · omega
    · rw [card_insert_of_notMem hb] at hcard ⊢
      omega

/-- A thread that is about to log a block that is not listed finds room for it. -/
lemma length_lt {op : LogOp} {b : ℕ}
    (hl : pcs t = .lTest op b) (hb : b ∉ op.blocks) : x.lh.length < LOGBLOCKS := by
  have hcard := h.pending t op b (by rw [hl]; rfl)
  rw [card_insert_of_notMem hb] at hcard
  have hslack : (pcs t).slack = MAXOPBLOCKS - op.blocks.card := by rw [hl]; rfl
  have hle : (pcs t).slack ≤ slackSum pcs :=
    single_le_sum (f := fun t => (pcs t).slack) (fun _ _ => Nat.zero_le _) (mem_range.mpr ht)
  have hroom := h.room
  omega

end

end ReserveInv

/-- The blocks of an open operation are listed. -/
lemma LogOp.Open.mem_lh {op : LogOp} {x : LogShared} (h : op.Open x) {b : ℕ} (hb : b ∈ op.blocks) :
    b ∈ x.lh := by
  obtain ⟨w, hw, rfl⟩ := List.mem_map.mp (List.mem_toFinset.mp hb)
  exact (h.2 w hw).2

/-- Every action keeps the reservation, if the operation keeps to its budget. -/
lemma ReserveInv.act {x x' : LogShared} {pcs : ℕ → LogPc} {l' : LogPc}
    (h : ReserveInv x pcs) (hg : GroupInv x pcs) (ht : t < NPROC) (ha : LogAct (pcs t) x l' x')
    (hbudget : ∀ op b, pcs t = .inOp op → l' = .lAcquire op b →
      (insert b op.blocks).card ≤ MAXOPBLOCKS) : ReserveInv x' (update pcs t l') := by
  generalize hl : pcs t = l at ha
  have hnone : ∀ {m : LogPc}, m.pending = none → ∀ op b, m.pending = some (op, b) →
      (insert b op.blocks).card ≤ MAXOPBLOCKS := by
    intro m hm op b hb
    rw [hm] at hb
    exact absurd hb (by simp)
  cases ha with
  | call x l' hcall =>
    rcases hcall with rfl | rfl <;> exact h.leave ht rfl rfl le_rfl
  | wait | syncWait | syncIdle | syncMore | syncEnd | empty | start | logEnd | installEnd | done
  | head | erase | log =>
    exact h.leave ht rfl rfl le_rfl
  | install k b x hb =>
    exact h.leave ht rfl rfl (by simp)
  | clear x => exact h.leave ht rfl rfl (Nat.zero_le _)
  | last | more => exact h.leave ht rfl rfl le_rfl
  | leave op x => exact h.keep ht (by rw [hl]; rfl) (hnone rfl) le_rfl
  | modify op x b data =>
    refine h.keep ht (by rw [hl]; rfl) (fun op' b' hb => ?_) le_rfl
    obtain ⟨rfl, rfl⟩ := Prod.mk.inj (Option.some.inj hb)
    exact hbudget _ _ hl rfl
  | absorb op b x hlen hb => exact h.logs ht hl (Or.inl rfl)
  | add op b x hlen hb =>
    refine h.logs ht hl (Or.inr ⟨fun hmem => hb ?_, by simp⟩)
    exact (hg.op t op (by rw [hl]; rfl)).mem_lh hmem
  | enter x hc hspace =>
    -- `begin_op` has checked that the new operation fits beside all the others.
    refine ⟨fun u op hu => ?_, fun u op b hu => ?_, ?_⟩
    · by_cases hut : u = t
      · subst hut
        rw [update_self] at hu
        obtain rfl := Option.some.inj hu
        exact Nat.zero_le _
      · rw [update_of_ne hut] at hu
        exact h.budget u op hu
    · by_cases hut : u = t
      · subst hut
        rw [update_self] at hu
        exact absurd hu (by simp)
      · rw [update_of_ne hut] at hu
        exact h.pending u op b hu
    · have hsum := slackSum_update pcs ht
        (.bRelease { epoch := x.commits.length, writes := [] })
      have hslack : (LogPc.bRelease { epoch := x.commits.length, writes := [] }).slack ≤ MAXOPBLOCKS :=
        Nat.sub_le ..
      have hle : (slackSum pcs : ℤ) ≤ x.outstanding * MAXOPBLOCKS := hg.outstanding ▸ slackSum_le
      have hspace := not_lt.mp hspace
      change x.lh.length + _ ≤ _
      have hexp : (x.outstanding + 1) * (MAXOPBLOCKS : ℤ) = x.outstanding * MAXOPBLOCKS + MAXOPBLOCKS := by
        ring
      rw [hexp] at hspace
      omega

/-! ## Runs -/

/-- An operation that logs a block keeps to `MAXOPBLOCKS` distinct blocks. -/
def WithinBudget (s : Threads LogShared LogPc) : ThreadStep LogChoice → Prop
  | .run t (.write b _) => ∀ op ∈ (s.pcs t).op, (insert b op.blocks).card ≤ MAXOPBLOCKS
  | _ => True

/-- The block for which a thread is about to run the critical section of `log_write`. -/
@[simp] def logging : Ctl LogPc → Option ℕ
  | .pc (.lTest _ b) => some b
  | _ => none

/-- A block that is listed already is logged again only while there is room in the log. -/
def NoFullAbsorption (s : Threads LogShared LogPc) : ThreadStep LogChoice → Prop
  | .run t _ => ∀ b ∈ logging (s.ctl t), b ∈ s.sh.lh → s.sh.lh.length < LOGBLOCKS
  | _ => True

instance (s : Threads LogShared LogPc) : ∀ a, Decidable (WithinBudget s a)
  | .run _ (.write _ _) => inferInstanceAs (Decidable (∀ _ ∈ _, _))
  | .run _ .beginOp | .run _ .endOp | .run _ .sync | .run _ .go
  | .kkill _ | .yield _ | .schedule _ => isTrue trivial

instance (s : Threads LogShared LogPc) : ∀ a, Decidable (NoFullAbsorption s a)
  | .run _ _ => inferInstanceAs (Decidable (∀ _ ∈ _, _))
  | .kkill _ | .yield _ | .schedule _ => isTrue trivial

/-- The step lemma of the reservation. -/
lemma ReserveInv.step (h : ReserveInv s.sh s.pcs) (hg : GroupInv s.sh s.pcs) (ha : WithinBudget s a)
    (hs : Threads.step (logCode chan) s a = some s') : ReserveInv s'.sh s'.pcs := by
  refine (Threads.step_cases hs).rule h ?_ ?_
  · intro t ht l' hnext
    exact h.keep ht (logCode_next hnext).1
      (fun op b hb => h.pending t op b (logCode_next_pending hnext hb)) le_rfl
  · intro t ht f ch l' hrun hf hfx
    refine h.act hg ht (logAct_of_next hf hfx) fun op b hl hl' => ?_
    obtain ⟨data, rfl⟩ := choice_of_lAcquire (hl ▸ hf) (hl' ▸ hfx)
    subst hrun
    exact ha op (by rw [hl]; rfl)

/-- `log_write` finds the log full only when it is about to absorb. -/
lemma ReserveInv.not_too_big
    (h : ReserveInv s.sh s.pcs) (hg : GroupInv s.sh s.pcs) (ha : NoFullAbsorption s a)
    (hs : Threads.step (logCode chan) s a = some s') :
    s'.panicked ≠ some "too big a transaction" := by
  obtain ⟨-, -, hp⟩ | ⟨t, ht, hctl, ⟨l', -, -, -, hp⟩ | ⟨f, ch, l', -, -, -, -, hp⟩ |
    ⟨msg, -, -, hp, hwhy⟩⟩ := Threads.step_cases hs
  · simp [hp]
  · simp [hp]
  · simp [hp]
  · rw [hp]
    rcases hwhy with ⟨l, -, rfl⟩ | ⟨l, -, rfl⟩ | ⟨f, ch, hrun, hf, hfx⟩
    · simp
    · simp
    intro hmsg
    have hpanic := logPanic_of_panic hf hfx
    generalize hl : s.pcs t = l at hpanic
    cases hpanic with
    | tooBig op b x hlen =>
      by_cases hb : b ∈ s.sh.lh
      · subst hrun
        exact absurd (ha b (by rw [hctl, hl]; rfl) hb) (not_lt.mpr hlen)
      · have hb : b ∉ op.blocks := fun hmem => hb ((hg.op t op (by rw [hl]; rfl)).mem_lh hmem)
        exact absurd (h.length_lt ht hl hb) (not_lt.mpr hlen)
    | _ => exact absurd hmsg (by decide)

lemma LogFresh.reserve (h : LogFresh s) : ReserveInv s.sh s.pcs where
  budget := fun t _ ht => absurd ht (by simp [h.pcs])
  pending := fun t _ _ ht => absurd ht (by simp [h.pcs])
  room := by simp [h.lh, h.pcs, slackSum, LogPc.slack]

/-- Absorption in a full log panics. -/
lemma panicked_of_fullAbsorption (ha : ¬NoFullAbsorption s a)
    (hs : Threads.step (logCode chan) s a = some s') :
    s'.panicked = some "too big a transaction" := by
  cases a with
  | run t ch =>
    simp only [NoFullAbsorption, not_forall] at ha
    obtain ⟨b, hb, -, hlen⟩ := ha
    obtain ⟨op, hl⟩ : ∃ op, s.ctl t = .pc (.lTest op b) := by
      revert hb
      cases s.ctl t with
      | pc l => cases l <;> simp
      | scan => simp
    rw [Threads.step] at hs
    split_ifs at hs
    simp only [Threads.turn, hl, logCode, Threads.exec, LogShared.logWrite,
      if_pos (not_lt.mp hlen)] at hs
    obtain rfl := Option.some.inj hs
    rfl
  | _ => exact absurd trivial ha

/-- A run that does not end in this panic has met the condition throughout. -/
lemma noFullAbsorption_of_run
    {as : List (ThreadStep LogChoice)} (hrun : run (Threads.step (logCode chan)) s as = some s')
    (hp : s'.panicked ≠ some "too big a transaction") :
    StepsOk (Threads.step (logCode chan)) NoFullAbsorption s as := by
  induction as generalizing s with
  | nil => trivial
  | cons a as ih =>
    obtain ⟨t, ht, hrun⟩ := run_cons_eq_some.mp hrun
    refine StepsOk.cons ht ?_ (ih hrun)
    by_contra ha
    have ht' := panicked_of_fullAbsorption ha ht
    rw [Threads.run_of_panicked ht' hrun] at hp
    exact hp ht'

/-- **The log reservation.**  If every operation logs at most `MAXOPBLOCKS` distinct blocks, then the
header never lists more than `LOGBLOCKS` blocks, and `log_write` panics for lack of room exactly if
some operation logs a listed block again while the log is full. -/
theorem log_reservation (chan : ℕ) (s₀ s : Threads LogShared LogPc)
    (as : List (ThreadStep LogChoice)) (h₀ : LogFresh s₀)
    (hbudget : StepsOk (Threads.step (logCode chan)) WithinBudget s₀ as)
    (hrun : run (Threads.step (logCode chan)) s₀ as = some s) :
    s.sh.lh.length ≤ LOGBLOCKS ∧
    (s.panicked ≠ some "too big a transaction" ↔
      StepsOk (Threads.step (logCode chan)) NoFullAbsorption s₀ as) := by
  have hinv : ∀ s a s', GroupOk s ∧ ReserveInv s.sh s.pcs → WithinBudget s a →
      Threads.step (logCode chan) s a = some s' → GroupOk s' ∧ ReserveInv s'.sh s'.pcs :=
    fun s a s' h ha hs => ⟨h.1.step hs, h.2.step h.1.1 ha hs⟩
  refine ⟨?_, fun hp => noFullAbsorption_of_run hrun hp, fun habsorb => ?_⟩
  · have hroom := (run_invariant_of_stepsOk hinv ⟨h₀.ok, h₀.reserve⟩ hbudget hrun).2.room
    omega
  · refine (run_invariant_of_stepsOk (I := fun s => (GroupOk s ∧ ReserveInv s.sh s.pcs) ∧
      s.panicked ≠ some "too big a transaction") (fun s a s' h ha hs => ?_) ⟨⟨h₀.ok, h₀.reserve⟩, ?_⟩
      (hbudget.and habsorb) hrun).2
    · exact ⟨hinv s a s' h.1 ha.1 hs, h.1.2.not_too_big h.1.1.1 ha.2 hs⟩
    · simp [h₀.panicked]

/-- Three operations that log ten blocks each. -/
def threeOps : List (ThreadStep LogChoice) :=
  (List.range 3).flatMap beginOpBy ++
    (List.range 30).flatMap fun i => logWriteBy (i / 10) (50 + i)

/-- Three operations of ten blocks fill the log up, and no more. -/
theorem log_reservation_threeOps : ∃ s,
    run (Threads.step (logCode 0x80010000)) freshLog threeOps = some s ∧
    s.sh.lh.length = LOGBLOCKS ∧ s.panicked ≠ some "too big a transaction" := by
  obtain ⟨s, hs, hlen⟩ : ∃ s, run (Threads.step (logCode 0x80010000)) freshLog threeOps = some s ∧
      s.sh.lh.length = 30 := by
    have h : (run (Threads.step (logCode 0x80010000)) freshLog threeOps).map
      (fun s => s.sh.lh.length) = some 30 := by decide +kernel
    exact Option.map_eq_some_iff.mp h
  have h := log_reservation 0x80010000 freshLog s threeOps freshLog_fresh (by decide +kernel) hs
  exact ⟨s, hs, hlen, h.2.mpr (by decide +kernel)⟩

/-- The first of the three operations logs its first block again. -/
def threeOpsAgain : List (ThreadStep LogChoice) :=
  threeOps ++ [.run 0 (.write 50 fun _ => 8), .run 0 .go, .run 0 .go]

/-- The operations of `threeOpsAgain` keep to ten blocks each, and `log_write` panics. -/
theorem log_full_absorption_panics : ∃ s,
    run (Threads.step (logCode 0x80010000)) freshLog threeOpsAgain = some s ∧
    StepsOk (Threads.step (logCode 0x80010000)) WithinBudget freshLog threeOpsAgain ∧
    s.panicked = some "too big a transaction" := by
  have h : (run (Threads.step (logCode 0x80010000)) freshLog threeOpsAgain).map Threads.panicked =
      some (some "too big a transaction") := by
    decide +kernel
  obtain ⟨s, hs, hp⟩ := Option.map_eq_some_iff.mp h
  exact ⟨s, hs, by decide +kernel, hp⟩

end Xv6
