import Xv6.Bio.Steps

/-!
# The buffer cache is coherent

What a valid buffer holds is what has been stored last in its block (`DataInv.data`).  Three facts
carry this from step to step: a block that no valid buffer holds is on the disk as it was stored last
(`DataInv.disk`); a buffer that is neither modified nor pinned by the log agrees with the disk
(`DataInv.clean`), so it may be recycled; and the log's pins keep a logged block in its buffer until
`install_trans` has written it home.

Buffers that have never been used all say device 0, block 0.  In the order of the list only the first
of several buffers with one name can be in use, and that is the one `bget` finds (`ListInv`).
-/

namespace Xv6

open Finset Function

/-! ## The list -/

/-- Two buffers are named after the same block. -/
def SameBlock (x y : Buf) : Prop := x.dev = y.dev ∧ x.blockno = y.blockno

/-- Two buffers hold the same block. -/
def SameData (x y : Buf) : Prop := SameBlock x y ∧ x.valid = y.valid ∧ x.data = y.data

lemma SameData.refl (x : Buf) : SameData x x := ⟨⟨rfl, rfl⟩, rfl, rfl⟩

/-- A buffer that nobody uses and that holds no data. -/
def Unfilled (x : Buf) : Prop := x.valid = false ∧ x.refcnt = 0

/-- Of several buffers named after one block only the first in the list is used. -/
def FirstOnly (bc : Bcache) (l : List ℕ) : Prop :=
  l.Pairwise fun i j => SameBlock (bc i) (bc j) → Unfilled (bc j)

/-- The list of the buffers. -/
def ListInv (s : BufSys) : Prop := ∃ l, s.bc.Order l ∧ FirstOnly s.bc l

namespace ListInv

variable {s s' : BufSys} {p i j : ℕ} {a : BufStep} {bc bc' : Bcache} {l : List ℕ}

/-- A buffer with the name of one that is in use is not used. -/
lemma unfilled (h : ListInv s) (hi : i < NBUF) (hj : j < NBUF) (hij : j ≠ i)
    (hpos : 0 < (s.bc i).refcnt) (hsame : SameBlock (s.bc i) (s.bc j)) : Unfilled (s.bc j) := by
  obtain ⟨l, hl, hfirst⟩ := h
  rw [FirstOnly, List.pairwise_iff_getElem] at hfirst
  obtain ⟨m, hm, rfl⟩ := List.getElem_of_mem ((hl.2 i).mpr hi)
  obtain ⟨n, hn, rfl⟩ := List.getElem_of_mem ((hl.2 j).mpr hj)
  rcases Nat.lt_trichotomy m n with hmn | rfl | hmn
  · exact hfirst m n hm hn hmn hsame
  · exact absurd rfl hij
  · have hun := hfirst n m hn hm hmn ⟨hsame.1.symm, hsame.2.symm⟩
    have := hun.2
    omega

/-- A step that changes buffer `i` only, which is in use and keeps its name. -/
lemma of_used (h : ListInv s) (hpos : 0 < (s.bc i).refcnt) {x : Buf}
    (hbc : s'.bc = update s.bc i x) (hptr : x.next = (s.bc i).next ∧ x.prev = (s.bc i).prev)
    (hid : SameBlock x (s.bc i)) : ListInv s' := by
  obtain ⟨l, hl, hfirst⟩ := h
  refine ⟨l, hbc ▸ hl.update hptr.1 hptr.2, List.Pairwise.imp (fun {m n} hmn hsame => ?_) hfirst⟩
  have hname : ∀ m, SameBlock (s'.bc m) (s.bc m) := by
    rw [hbc]
    exact (forall_update_iff s.bc fun m y => SameBlock y (s.bc m)).mpr ⟨hid, fun _ _ => ⟨rfl, rfl⟩⟩
  have hun := hmn ⟨(hname m).1.symm.trans (hsame.1.trans (hname n).1),
    (hname m).2.symm.trans (hsame.2.trans (hname n).2)⟩
  have hni : n ≠ i := by
    rintro rfl
    have := hun.2
    omega
  rw [hbc, update_of_ne hni]
  exact hun

lemma of_bc (h : ListInv s) (hbc : s'.bc = s.bc) : ListInv s' := by
  unfold ListInv
  rw [hbc]
  exact h

/-- `bget` finds the first buffer with the name. -/
lemma firstOnly_hit (hl : bc.Order l) (hfirst : FirstOnly bc l) {d b : ℕ}
    (hi : l.find? (fun j => (bc j).dev == d && (bc j).blockno == b) = some i) (n : ℕ) :
    FirstOnly (update bc i { bc i with refcnt := n }) l := by
  have hname : ∀ m, SameBlock (update bc i { bc i with refcnt := n } m) (bc m) := fun m =>
    ⟨(CacheInv.update_same _ _ n m).1, (CacheInv.update_same _ _ n m).2.1⟩
  have hnodup : l.Nodup := (List.nodup_cons.mp hl.1.nodup).2
  obtain ⟨hmatch, k, hk, rfl, hbefore⟩ := List.find?_eq_some_iff_getElem.mp hi
  rw [Bool.and_eq_true, beq_iff_eq, beq_iff_eq] at hmatch
  rw [FirstOnly, List.pairwise_iff_getElem] at hfirst ⊢
  intro u v hu hv huv hsame
  have hsame' : SameBlock (bc l[u]) (bc l[v]) :=
    ⟨(hname _).1.symm.trans (hsame.1.trans (hname _).1),
      (hname _).2.symm.trans (hsame.2.trans (hname _).2)⟩
  have hvk : l[v] ≠ l[k] := by
    intro heq
    obtain rfl : v = k := hnodup.getElem_inj_iff.mp heq
    have hu := hbefore u huv
    simp [hsame'.1, hsame'.2, hmatch.1, hmatch.2] at hu
  rw [update_of_ne hvk]
  exact hfirst u v hu hv huv hsame'

lemma firstOnly_recycle (hfirst : FirstOnly bc l) {d b : ℕ} (hlt : ∀ j ∈ l, j < NBUF)
    (hmiss : ∀ j, ¬bc.Caches j d b) (hnodup : l.Nodup) {x : Buf} (hx : x.dev = d ∧ x.blockno = b) :
    FirstOnly (update bc i x) l := by
  have hmem : l.Pairwise fun m n => m ∈ l ∧ n ∈ l ∧ m ≠ n := by
    rw [List.pairwise_iff_getElem]
    exact fun u v hu hv huv => ⟨List.getElem_mem hu, List.getElem_mem hv, fun heq =>
      absurd (hnodup.getElem_inj_iff.mp heq) (by omega)⟩
  refine (hfirst.and hmem).imp fun {m n} hmn hsame => ?_
  obtain ⟨hmn, hm, hn, hne⟩ := hmn
  by_cases hmi : m = i
  · -- no other buffer has the new name
    subst hmi
    rw [update_self, update_of_ne (Ne.symm hne)] at hsame
    exact absurd ⟨hlt n hn, hsame.1.symm.trans hx.1, hsame.2.symm.trans hx.2⟩ (hmiss n)
  · by_cases hni : n = i
    · subst hni
      rw [update_self, update_of_ne hmi] at hsame
      exact absurd ⟨hlt m hm, hsame.1.trans hx.1, hsame.2.trans hx.2⟩ (hmiss m)
    · rw [update_of_ne hmi, update_of_ne hni] at hsame
      rw [update_of_ne hni]
      exact hmn hsame

/-- `brelse` may put the buffer in front: no buffer before it has its name. -/
lemma firstOnly_drop (hfirst : FirstOnly bc l) (hpos : 0 < (bc i).refcnt) {l' : List ℕ}
    (hl' : l' = l ∨ ∃ l₁ l₂, l = l₁ ++ i :: l₂ ∧ l' = i :: (l₁ ++ l₂)) :
    FirstOnly (bc.drop i) l' := by
  have hname : ∀ m, SameBlock (bc.drop i m) (bc m) := fun m =>
    ⟨(Bcache.sameBut_drop _ _ m).dev.trans (CacheInv.update_same _ _ _ m).1,
      (Bcache.sameBut_drop _ _ m).blockno.trans (CacheInv.update_same _ _ _ m).2.1⟩
  have hkeep : ∀ {m n}, (SameBlock (bc m) (bc n) → Unfilled (bc n)) →
      SameBlock (bc.drop i m) (bc.drop i n) → n ≠ i ∧ Unfilled (bc.drop i n) := by
    intro m n hmn hsame
    have hun := hmn ⟨(hname m).1.symm.trans (hsame.1.trans (hname n).1),
      (hname m).2.symm.trans (hsame.2.trans (hname n).2)⟩
    have hni : n ≠ i := by
      rintro rfl
      have := hun.2
      omega
    have hb := Bcache.sameBut_drop bc i n
    rw [update_of_ne hni] at hb
    exact ⟨hni, hb.valid.trans hun.1, hb.refcnt.trans hun.2⟩
  rcases hl' with rfl | ⟨l₁, l₂, rfl, rfl⟩
  · exact List.Pairwise.imp (fun hmn hsame => (hkeep hmn hsame).2) hfirst
  · obtain ⟨h₁, h₂, h₁₂⟩ := List.pairwise_append.mp hfirst
    obtain ⟨hi, h₂⟩ := List.pairwise_cons.mp h₂
    refine List.pairwise_cons.mpr ⟨fun n hn hsame => ?_, List.pairwise_append.mpr
      ⟨h₁.imp fun hmn hsame => (hkeep hmn hsame).2, h₂.imp fun hmn hsame => (hkeep hmn hsame).2,
        fun m hm n hn hsame => (hkeep (h₁₂ m hm n (List.mem_cons_of_mem _ hn)) hsame).2⟩⟩
    rcases List.mem_append.mp hn with hn | hn
    · exact absurd rfl (hkeep (h₁₂ n hn i List.mem_cons_self) ⟨hsame.1.symm, hsame.2.symm⟩).1
    · exact (hkeep (hi n hn) hsame).2

/-- **The list, step by step.** -/
theorem step (h : ListInv s) (hi : CacheInv s) (hc : CommitInv s) (hact : s.Acts p a s') :
    ListInv s' := by
  have hheld : ∀ {i}, i ∈ (s.client p).held → 0 < (s.bc i).refcnt := fun hi' =>
    hi.refcnt_pos (CacheInv.refs_pos_of_held hi')
  have hcalled : ∀ {i}, (s.client p).call.buf = some i → 0 < (s.bc i).refcnt := fun hi' =>
    hi.refcnt_pos (CacheInv.refs_pos_of_call hi')
  cases hact with
  | bread _ d b hcall _ =>
    obtain ⟨l, hl, hfirst⟩ := h
    rw [BufSys.bread]
    split
    case h_2 => exact ⟨l, hl, hfirst⟩
    case h_1 i bc hget =>
      cases hl.bget_some hget with
      | hit _ hfind => exact ⟨l, hl.update rfl rfl, firstOnly_hit hl hfirst hfind _⟩
      | recycle _ hmiss _ _ =>
        exact ⟨l, hl.update rfl rfl, firstOnly_recycle hfirst (fun j hj => (hl.2 j).mp hj) hmiss
          (List.nodup_cons.mp hl.1.nodup).2 ⟨rfl, rfl⟩⟩
  | lock d b i hcall _ | fill d b i hcall _ =>
    exact h.of_used (hcalled (by rw [hcall]; rfl)) rfl ⟨rfl, rfl⟩ ⟨rfl, rfl⟩
  | found => exact h.of_bc rfl
  | store _ i data t hcall ht =>
    have hheldi : i ∈ (s.client p).held := by
      rcases ht with ⟨-, -, -, hheldi⟩ | ⟨-, ht⟩
      · exact hheldi
      · exact hc.held_of_stores hcall ht
    exact h.of_used (hheld hheldi) rfl ⟨rfl, rfl⟩ ⟨rfl, rfl⟩
  | bwrite =>
    rw [BufSys.bwrite]
    split_ifs
    · exact h.of_bc rfl
    · exact h.of_bc rfl
  | brelse _ i hcall _ =>
    rw [BufSys.brelse]
    split_ifs with hl
    · exact h.of_used (hheld (hi.held_of_lock hcall hl)) rfl ⟨rfl, rfl⟩ ⟨rfl, rfl⟩
    · exact h.of_bc rfl
  | drop i hcall =>
    have hpos := hcalled (i := i) (by rw [hcall]; rfl)
    obtain ⟨l, hl, hfirst⟩ := h
    have hlt : i < NBUF := hi.bound p i (CacheInv.refs_pos_of_call (by rw [hcall]; rfl))
    obtain ⟨l', hord, hl'⟩ := hl.drop hlt
    exact ⟨l', hord, firstOnly_drop hfirst hpos hl'⟩
  | logWrite i _ hheldi =>
    rw [BufSys.logWrite]
    dsimp only
    split_ifs
    · exact h.of_bc rfl
    · exact h.of_bc rfl
    · exact h.of_bc rfl
    · exact h.of_used (hheld hheldi) rfl ⟨rfl, rfl⟩ ⟨rfl, rfl⟩
  | bpin i _ hheldi => exact h.of_used (hheld hheldi) rfl ⟨rfl, rfl⟩ ⟨rfl, rfl⟩
  | bunpin i _ hpin =>
    exact h.of_used (hi.refcnt_pos (CacheInv.refs_pos_of_pins hpin)) rfl ⟨rfl, rfl⟩ ⟨rfl, rfl⟩
  | endOp =>
    rw [BufSys.endOp]
    dsimp only
    split_ifs <;> exact h.of_bc rfl
  | unpin k lbuf dbuf hcall ht =>
    obtain ⟨hown, -, -⟩ := hc.bufs p dbuf (s.lh.getD k 0) (by rw [ht]; simp [BufSys.bufs])
    exact h.of_used (hi.refcnt_pos (CacheInv.refs_pos_of_owns hown)) rfl ⟨rfl, rfl⟩ ⟨rfl, rfl⟩
  | beginOp | move | clear | finish => exact h.of_bc rfl

end ListInv

/-! ## The data -/

/-- The buffers of `commit()` that it has not modified since they were read or written. -/
def CommitPc.clean : CommitPc → List ℕ
  | .wFrom _ b | .wDropTo _ b | .iHome _ b | .iDropHome _ b | .hFill _ b | .hDrop _ b => [b]
  | .wCopy _ b b' | .wDropFrom _ b b' | .iCopy _ b b' | .iUnpin _ b b' | .iDropLog _ b b' => [b, b']
  | .wWrite _ _ b' => [b']
  | .iWrite _ b _ => [b]
  | _ => []

/-- The log has pinned the block of buffer `i`. -/
def BufSys.LogPinned (s : BufSys) (i : ℕ) : Prop :=
  (s.bc i).dev = s.dev ∧ (s.bc i).blockno ∈ s.logPins

/-- What the buffers and the disk hold. -/
structure DataInv (s : BufSys) : Prop where
  data : ∀ i < NBUF, (s.bc i).valid = true → (s.bc i).data = s.mem (s.bc i).dev (s.bc i).blockno
  disk : ∀ d b, (∀ i, s.bc.Caches i d b → (s.bc i).valid = false) → s.disk d b = s.mem d b
  clean : ∀ i < NBUF, (s.bc i).valid = true → s.touched i = false → ¬s.LogPinned i →
    (s.bc i).data = s.disk (s.bc i).dev (s.bc i).blockno
  pinned : ∀ i < NBUF, s.LogPinned i → (s.bc i).valid = true
  held : ∀ p i, i ∈ (s.client p).held → (s.bc i).valid = true
  touched : ∀ i, s.touched i = true → ∃ p, i ∈ (s.client p).held
  settled : ∀ p i, i ∈ (s.client p).task.clean → i ∈ (s.client p).held → s.touched i = false
  installed : ∀ p k l d, (s.client p).task = .iUnpin k l d →
    (s.bc d).data = s.disk (s.bc d).dev (s.bc d).blockno

namespace DataInv

variable {s s' : BufSys} {p i : ℕ} {c : Client} {a : BufStep}

lemma panic (h : DataInv s) (msg : String) : DataInv (s.panic msg) :=
  ⟨h.data, h.disk, h.clean, h.pinned, h.held, h.touched, h.settled, h.installed⟩

/-- Nobody has modified a buffer that nobody holds. -/
lemma untouched (h : DataInv s) (hi : ∀ p, i ∉ (s.client p).held) : s.touched i = false := by
  by_contra ht
  obtain ⟨p, hp⟩ := h.touched i (by simpa using ht)
  exact hi p hp

/-- What `p` may become: it has more valid buffers, or fewer, all that it has modified among them, and
what its task takes for granted holds already. -/
structure Keeps (s : BufSys) (p : ℕ) (c : Client) : Prop where
  held : ∀ i ∈ c.held, i ∈ (s.client p).held ∨ (s.bc i).valid = true
  touched : ∀ i ∈ (s.client p).held, s.touched i = true → i ∈ c.held
  settled : ∀ i ∈ c.task.clean, i ∈ c.held → s.touched i = false
  installed : ∀ k l d, c.task = .iUnpin k l d → (s.client p).task = .iUnpin k l d

lemma Keeps.of_held (hheld : c.held = (s.client p).held)
    (hsettled : ∀ i ∈ c.task.clean, i ∈ (s.client p).held → s.touched i = false)
    (hinst : ∀ k l d, c.task = .iUnpin k l d → (s.client p).task = .iUnpin k l d) : Keeps s p c :=
  ⟨fun _ hi => Or.inl (hheld ▸ hi), fun _ hi _ => hheld ▸ hi, hheld ▸ hsettled, hinst⟩

lemma keeps (h : DataInv s) (hheld : c.held = (s.client p).held)
    (htask : c.task = (s.client p).task) : Keeps s p c :=
  .of_held hheld (htask ▸ h.settled p) fun _ _ _ ht => htask ▸ ht

/-- A step that moves no data, but may change the pins of the log and what is marked as modified. -/
lemma of_update (h : DataInv s) (hclient : s'.client = update s.client p c) (hdisk : s'.disk = s.disk)
    (hmem : s'.mem = s.mem) (hbc : ∀ j, SameData (s'.bc j) (s.bc j))
    (htouched : ∀ j, s'.touched j = true → s.touched j = true)
    (hclean : ∀ j < NBUF, (s.bc j).valid = true → s'.touched j = false → ¬s'.LogPinned j →
      (s.bc j).data = s.disk (s.bc j).dev (s.bc j).blockno)
    (hpinned : ∀ j < NBUF, s'.LogPinned j → (s.bc j).valid = true)
    (hc : Keeps s p c) : DataInv s' := by
  have hself : s'.client p = c := by rw [hclient, update_self]
  have hother : ∀ q ≠ p, s'.client q = s.client q := fun q hq => by
    rw [hclient, update_of_ne hq]
  have hfalse : ∀ j, s.touched j = false → s'.touched j = false := fun j hj => by
    by_contra hne
    rw [htouched j (by simpa using hne)] at hj
    exact absurd hj (by simp)
  refine ⟨fun j hj hv => ?_, fun d b hno => ?_, fun j hj hv ht hp => ?_, fun j hj hp => ?_,
    fun q j hj => ?_, fun j ht => ?_, fun q j hj hq => hfalse j ?_, fun q k l d hq => ?_⟩
  · rw [(hbc j).2.2, (hbc j).1.1, (hbc j).1.2, hmem]
    exact h.data j hj ((hbc j).2.1 ▸ hv)
  · rw [hdisk, hmem]
    refine h.disk d b fun j hj => ?_
    rw [← (hbc j).2.1]
    exact hno j ⟨hj.1, (hbc j).1.1.trans hj.2.1, (hbc j).1.2.trans hj.2.2⟩
  · rw [(hbc j).2.2, (hbc j).1.1, (hbc j).1.2, hdisk]
    exact hclean j hj ((hbc j).2.1 ▸ hv) ht hp
  · rw [(hbc j).2.1]
    exact hpinned j hj hp
  · rw [(hbc j).2.1]
    by_cases hqp : q = p
    · rw [hqp, hself] at hj
      exact (hc.held j hj).elim (h.held p j) id
    · rw [hother q hqp] at hj
      exact h.held q j hj
  · obtain ⟨q, hq⟩ := h.touched j (htouched j ht)
    refine ⟨q, ?_⟩
    by_cases hqp : q = p
    · subst hqp
      rw [hself]
      exact hc.touched j hq (htouched j ht)
    · rw [hother q hqp]
      exact hq
  · by_cases hqp : q = p
    · rw [hqp, hself] at hj hq
      exact hc.settled j hj hq
    · rw [hother q hqp] at hj hq
      exact h.settled q j hj hq
  · rw [(hbc d).2.2, (hbc d).1.1, (hbc d).1.2, hdisk]
    by_cases hqp : q = p
    · rw [hqp, hself] at hq
      exact h.installed p k l d (hc.installed k l d hq)
    · rw [hother q hqp] at hq
      exact h.installed q k l d hq

/-- A step that changes neither the pins of the log nor what is marked as modified. -/
lemma of_same (h : DataInv s) (hclient : s'.client = update s.client p c)
    (hdev : s'.dev = s.dev) (hpins : s'.logPins = s.logPins) (hdisk : s'.disk = s.disk)
    (hmem : s'.mem = s.mem) (htouched : s'.touched = s.touched)
    (hbc : ∀ j, SameData (s'.bc j) (s.bc j))
    (hc : Keeps s p c) : DataInv s' := by
  have hlog : ∀ j, s'.LogPinned j ↔ s.LogPinned j := fun j => by
    rw [BufSys.LogPinned, BufSys.LogPinned, (hbc j).1.1, (hbc j).1.2, hdev, hpins]
  exact h.of_update hclient hdisk hmem hbc (fun j ht => htouched ▸ ht)
    (fun j hj hv ht hp => h.clean j hj hv (htouched ▸ ht) fun hl => hp ((hlog j).mpr hl))
    (fun j hj hp => h.pinned j hj ((hlog j).mp hp)) hc

/-- A buffer whose sleep-lock `bread` has just taken has not been modified. -/
lemma untouched_of_locked (h : DataInv s) (hi : CacheInv s)
    (hl : (s.client p).call.locked = some i) : s.touched i = false := by
  refine h.untouched fun q hq => ?_
  have hlock := (hi.lock i p).mpr (Or.inr hl)
  have hlock' := (hi.lock i q).mpr (Or.inl hq)
  obtain rfl : p = q := Option.some.inj (hlock.symm.trans hlock')
  exact hi.fresh p i hl hq

variable {t t' : CommitPc} {j k l d b : ℕ}

lemma clean_got (hj : j ∈ (t.got i).clean) : j ∈ t.clean ∨ j = i := by
  cases t <;> simp_all [CommitPc.got, CommitPc.clean]

lemma clean_dropped (hj : j ∈ t.dropped.clean) : j ∈ t.clean := by
  cases t with
  | hDrop last b => cases last <;> simp [CommitPc.dropped, CommitPc.clean] at hj
  | _ => simp_all [CommitPc.dropped, CommitPc.clean]

lemma got_eq_iUnpin (h : t.got i = .iUnpin k l d) :
    t = .iUnpin k l d := by
  cases t <;> simp_all [CommitPc.got]

lemma dropped_eq_iUnpin (h : t.dropped = .iUnpin k l d) :
    t = .iUnpin k l d := by
  cases t with
  | hDrop last b => cases last <;> simp [CommitPc.dropped] at h
  | _ => simp_all [CommitPc.dropped]

/-- The home block that is about to be unpinned is held. -/
lemma held_of_iUnpin (hc : CommitInv s) (ht : (s.client p).task = .iUnpin k l d) :
    d ∈ (s.client p).held := by
  refine hc.held_of_bufs (b := s.lh.getD k 0) (fun j hj => ?_) (by rw [ht]; simp [BufSys.bufs])
  have hrel := hc.dropping p j (by simp [ht]) hj
  rw [ht] at hrel
  exact absurd hrel (by simp)

/-- `bread` reads a block from the disk: no valid buffer holds it, so the disk is up to date. -/
lemma fill (h : DataInv s) (hi : CacheInv s) (hl : ListInv s)
    (hcall : (s.client p).call = .reading d b i) (hvalid : (s.bc i).valid = false) :
    DataInv ((s.setBuf i { s.bc i with
        valid := true, data := s.disk (s.bc i).dev (s.bc i).blockno }).setClient p
      { s.client p with
        call := .none, held := i :: (s.client p).held, task := (s.client p).task.got i }) := by
  set x : Buf := { s.bc i with valid := true, data := s.disk (s.bc i).dev (s.bc i).blockno } with hx
  set c : Client := { s.client p with
    call := .none, held := i :: (s.client p).held, task := (s.client p).task.got i } with hcdef
  set s' := (s.setBuf i x).setClient p c with hs'
  have hself : s'.client p = c := update_self ..
  have hother : ∀ q ≠ p, s'.client q = s.client q := fun q hq => update_of_ne hq ..
  have hbi : s'.bc i = x := update_self ..
  have hbj : ∀ j ≠ i, s'.bc j = s.bc j := fun j hj => update_of_ne hj ..
  have hpos : 0 < (s.client p).refs i := CacheInv.refs_pos_of_call (by rw [hcall]; rfl)
  have hlt := hi.bound p i hpos
  have hlock : (s.client p).call.locked = some i := by
    rw [hcall]
    rfl
  have hmem : s.disk (s.bc i).dev (s.bc i).blockno = s.mem (s.bc i).dev (s.bc i).blockno := by
    refine h.disk _ _ fun j hj => ?_
    by_cases hji : j = i
    · exact hji ▸ hvalid
    · exact (hl.unfilled hlt hj.1 hji (hi.refcnt_pos hpos) ⟨hj.2.1.symm, hj.2.2.symm⟩).1
  have hlog : ∀ j, s'.LogPinned j ↔ s.LogPinned j := fun j => by
    by_cases hji : j = i
    · rw [BufSys.LogPinned, BufSys.LogPinned, hji, hbi]
      exact Iff.rfl
    · rw [BufSys.LogPinned, BufSys.LogPinned, hbj j hji]
      exact Iff.rfl
  refine ⟨fun j hj hv => ?_, fun e y hno => ?_, fun j hj hv ht hp => ?_, fun j hj hp => ?_,
    fun q j hj => ?_, fun j ht => ?_, fun q j hj hq => ?_, fun q k l e hq => ?_⟩
  · by_cases hji : j = i
    · rw [hji, hbi]
      exact hmem
    · rw [hbj j hji] at hv ⊢
      exact h.data j hj hv
  · refine h.disk e y fun j hj => ?_
    by_cases hji : j = i
    · rw [hji]
      exact hvalid
    · rw [← hbj j hji]
      refine hno j ?_
      rw [Bcache.Caches, hbj j hji]
      exact hj
  · by_cases hji : j = i
    · rw [hji, hbi]
      rfl
    · rw [hbj j hji] at hv ⊢
      exact h.clean j hj hv ht fun hl => hp ((hlog j).mpr hl)
  · by_cases hji : j = i
    · rw [hji, hbi]
    · rw [hbj j hji]
      exact h.pinned j hj ((hlog j).mp hp)
  · by_cases hji : j = i
    · rw [hji, hbi]
    · rw [hbj j hji]
      by_cases hqp : q = p
      · rw [hqp, hself] at hj
        exact h.held p j (List.mem_of_ne_of_mem hji hj)
      · rw [hother q hqp] at hj
        exact h.held q j hj
  · obtain ⟨q, hq⟩ := h.touched j ht
    refine ⟨q, ?_⟩
    by_cases hqp : q = p
    · rw [hqp, hself]
      exact List.mem_cons_of_mem _ (hqp ▸ hq)
    · rw [hother q hqp]
      exact hq
  · by_cases hji : j = i
    · rw [hji]
      exact h.untouched_of_locked hi hlock
    · by_cases hqp : q = p
      · rw [hqp, hself] at hj hq
        exact h.settled p j ((clean_got hj).resolve_right hji) (List.mem_of_ne_of_mem hji hq)
      · rw [hother q hqp] at hj hq
        exact h.settled q j hj hq
  · by_cases hei : e = i
    · rw [hei, hbi]
      rfl
    · rw [hbj e hei]
      by_cases hqp : q = p
      · rw [hqp, hself] at hq
        exact h.installed p k l e (got_eq_iUnpin hq)
      · rw [hother q hqp] at hq
        exact h.installed q k l e hq

/-- `bget` recycles a buffer whose block is on the disk as it was stored last. -/
lemma recycle (h : DataInv s) (hi : CacheInv s) (hc : CommitInv s)
    (hlt : i < NBUF) (hmiss : ∀ j, ¬s.bc.Caches j d b) (hz : (s.bc i).refcnt = 0) :
    DataInv ((s.setBuf i
      { s.bc i with dev := d, blockno := b, valid := false, refcnt := 1 }).setClient p
        { s.client p with call := .locking d b i }) := by
  set x : Buf := { s.bc i with dev := d, blockno := b, valid := false, refcnt := 1 } with hx
  set s' := (s.setBuf i x).setClient p { s.client p with call := .locking d b i } with hs'
  have hsame : ∀ q, (s'.client q).held = (s.client q).held ∧
      (s'.client q).task = (s.client q).task :=
    (forall_update_iff s.client fun q y => y.held = (s.client q).held ∧
      y.task = (s.client q).task).mpr ⟨⟨rfl, rfl⟩, fun _ _ => ⟨rfl, rfl⟩⟩
  have hbi : s'.bc i = x := update_self ..
  have hbj : ∀ j ≠ i, s'.bc j = s.bc j := fun j hj => update_of_ne hj ..
  have hnot : ∀ q, i ∉ (s.client q).held := fun q hq => by
    have := CacheInv.refs_pos_of_held hq
    have := (hi.unused hlt hz q).1
    omega
  have hlog : ∀ j ≠ i, (s'.LogPinned j ↔ s.LogPinned j) := fun j hji => by
    rw [BufSys.LogPinned, BufSys.LogPinned, hbj j hji]
    exact Iff.rfl
  refine ⟨fun j hj hv => ?_, fun e y hno => ?_, fun j hj hv ht hp => ?_, fun j hj hp => ?_,
    fun q j hj => ?_, fun j ht => ?_, fun q j hj hq => ?_, fun q k l e hq => ?_⟩
  · by_cases hji : j = i
    · rw [hji, hbi] at hv
      exact absurd hv (by simp [hx])
    · rw [hbj j hji] at hv ⊢
      exact h.data j hj hv
  · change s.disk e y = s.mem e y
    by_cases hold : s.bc.Caches i e y ∧ (s.bc i).valid = true
    · obtain ⟨⟨-, rfl, rfl⟩, hv⟩ := hold
      have hdisk := h.clean i hlt hv (h.untouched hnot) (hi.unused hlt hz p).2
      rw [← hdisk]
      exact h.data i hlt hv
    · refine h.disk e y fun j hj => ?_
      by_cases hji : j = i
      · subst hji
        simpa using fun hv => hold ⟨hj, hv⟩
      · rw [← hbj j hji]
        refine hno j ?_
        rw [Bcache.Caches, hbj j hji]
        exact hj
  · by_cases hji : j = i
    · rw [hji, hbi] at hv
      exact absurd hv (by simp [hx])
    · rw [hbj j hji] at hv ⊢
      exact h.clean j hj hv ht fun hl => hp ((hlog j hji).mpr hl)
  · by_cases hji : j = i
    · rw [BufSys.LogPinned, hji, hbi] at hp
      obtain ⟨m, hm⟩ := hi.pinned b hp.2
      have hd : d = s.dev := hp.1
      exact absurd (hd ▸ hm) (hmiss m)
    · rw [hbj j hji]
      exact h.pinned j hj ((hlog j hji).mp hp)
  · rw [(hsame q).1] at hj
    rw [hbj j fun hji => hnot q (hji ▸ hj)]
    exact h.held q j hj
  · obtain ⟨q, hq⟩ := h.touched j ht
    exact ⟨q, (hsame q).1 ▸ hq⟩
  · rw [(hsame q).2] at hj
    rw [(hsame q).1] at hq
    exact h.settled q j hj hq
  · rw [(hsame q).2] at hq
    rw [hbj e fun hei => hnot q (hei ▸ held_of_iUnpin hc hq)]
    exact h.installed q k l e hq

lemma clean_of_stores {data : Block} (h : s.stores t = some (i, data, t'))
    (hd : ((s.bufs t).map Prod.fst).Nodup) :
    i ∉ t'.clean ∧ (∀ j ∈ t'.clean, j ∈ t.clean) ∧ ∀ k l d, t' ≠ .iUnpin k l d := by
  cases t <;> simp only [BufSys.stores, Option.some.injEq, Prod.mk.injEq, reduceCtorEq] at h
  all_goals
    obtain ⟨rfl, -, rfl⟩ := h
    simp_all [CommitPc.clean, BufSys.bufs, eq_comm]

lemma clean_of_writes (h : t.writes = some (i, t')) :
    (∀ j ∈ t'.clean, j ∈ t.clean ∨ j = i) ∧ ∀ k l d, t' = .iUnpin k l d → d = i := by
  cases t <;> simp only [CommitPc.writes, Option.some.injEq, Prod.mk.injEq, reduceCtorEq] at h
  all_goals
    obtain ⟨rfl, rfl⟩ := h
    simp_all [CommitPc.clean]

/-- The entry of one block changes. -/
lemma update_block (f : ℕ → ℕ → Block) (x : Buf) (v : Block) (d b : ℕ) :
    update f x.dev (update (f x.dev) x.blockno v) d b =
      if x.dev = d ∧ x.blockno = b then v else f d b := by
  by_cases hd : d = x.dev
  · subst hd
    rw [update_self]
    by_cases hb : b = x.blockno
    · subst hb
      simp
    · rw [update_of_ne hb, if_neg fun h => hb h.2.symm]
  · rw [update_of_ne hd, if_neg fun h => hd h.1.symm]

/-- A process stores into a buffer that it holds. -/
lemma store (h : DataInv s) (hi : CacheInv s) (hc : CommitInv s) (hl : ListInv s) {x : Block}
    (hheld : i ∈ (s.client p).held) (hclean : i ∉ t.clean)
    (hsub : ∀ j ∈ t.clean, j ∈ (s.client p).task.clean) (ht : ∀ k l d, t ≠ .iUnpin k l d) :
    DataInv ((s.store i x).setTask p t) := by
  set s' := (s.store i x).setTask p t with hs'
  have hself : s'.client p = { s.client p with task := t } := update_self ..
  have hother : ∀ q ≠ p, s'.client q = s.client q := fun q hq => update_of_ne hq ..
  have hbi : s'.bc i = { s.bc i with data := x } := update_self ..
  have hbj : ∀ j ≠ i, s'.bc j = s.bc j := fun j hj => update_of_ne hj ..
  have hmem : ∀ d b, s'.mem d b =
      if (s.bc i).dev = d ∧ (s.bc i).blockno = b then x else s.mem d b :=
    update_block s.mem (s.bc i) x
  have htouch : ∀ j ≠ i, s'.touched j = s.touched j := fun j hj => update_of_ne hj ..
  have hheldq : ∀ q, (s'.client q).held = (s.client q).held := proj_update Client.held (by rfl)
  have hname : ∀ j, SameBlock (s'.bc j) (s.bc j) ∧ (s'.bc j).valid = (s.bc j).valid := fun j => by
    by_cases hji : j = i
    · rw [hji, hbi]
      exact ⟨⟨rfl, rfl⟩, rfl⟩
    · rw [hbj j hji]
      exact ⟨⟨rfl, rfl⟩, rfl⟩
  have hlog : ∀ j, s'.LogPinned j ↔ s.LogPinned j := fun j => by
    rw [BufSys.LogPinned, BufSys.LogPinned, (hname j).1.1, (hname j).1.2]
    exact Iff.rfl
  have hlt := hi.lt_of_held hheld
  have hpos := hi.refcnt_pos (CacheInv.refs_pos_of_held hheld)
  refine ⟨fun j hj hv => ?_, fun e y hno => ?_, fun j hj hv htj hp => ?_, fun j hj hp => ?_,
    fun q j hj => ?_, fun j htj => ?_, fun q j hj hq => ?_, fun q k l e hq => ?_⟩
  · by_cases hji : j = i
    · rw [hmem, hji, hbi, if_pos ⟨rfl, rfl⟩]
    · rw [hmem, hbj j hji]
      rw [(hname j).2] at hv
      rw [if_neg fun hsame => ?_]
      · exact h.data j hj hv
      · have hun := hl.unfilled hlt hj hji hpos hsame
        rw [hun.1] at hv
        exact absurd hv (by simp)
  · rw [hmem, if_neg fun hname' => ?_]
    · refine h.disk e y fun j hj => ?_
      rw [← (hname j).2]
      exact hno j ⟨hj.1, (hname j).1.1.trans hj.2.1, (hname j).1.2.trans hj.2.2⟩
    · have hv := hno i ⟨hlt, (hname i).1.1.trans hname'.1, (hname i).1.2.trans hname'.2⟩
      rw [(hname i).2, h.held p i hheld] at hv
      exact absurd hv (by simp)
  · have hji : j ≠ i := by
      rintro rfl
      have htrue : s'.touched j = true := update_self ..
      rw [htrue] at htj
      exact absurd htj (by simp)
    rw [htouch j hji] at htj
    rw [hbj j hji] at hv ⊢
    exact h.clean j hj hv htj fun hl => hp ((hlog j).mpr hl)
  · rw [(hname j).2]
    exact h.pinned j hj ((hlog j).mp hp)
  · rw [(hname j).2]
    exact h.held q j (hheldq q ▸ hj)
  · by_cases hji : j = i
    · exact ⟨p, by rw [hji, hheldq]; exact hheld⟩
    · rw [htouch j hji] at htj
      obtain ⟨q, hq⟩ := h.touched j htj
      exact ⟨q, (hheldq q).symm ▸ hq⟩
  · rw [hheldq] at hq
    by_cases hqp : q = p
    · subst hqp
      rw [hself] at hj
      rw [htouch j fun hji => hclean (hji ▸ hj)]
      exact h.settled q j (hsub j hj) hq
    · rw [hother q hqp] at hj
      rw [htouch j fun hji => hqp (hi.held_unique hq (hji ▸ hheld))]
      exact h.settled q j hj hq
  · by_cases hqp : q = p
    · rw [hqp, hself] at hq
      exact absurd hq (ht k l e)
    · rw [hother q hqp] at hq
      rw [hbj e fun hei => hqp (hi.held_unique (held_of_iUnpin hc hq) (hei ▸ hheld))]
      exact h.installed q k l e hq

/-- A process writes a buffer that it holds. -/
lemma bwrite (h : DataInv s) (hi : CacheInv s) (hc : CommitInv s) (hl : ListInv s)
    (hheld : i ∈ (s.client p).held) (hsub : ∀ j ∈ t.clean, j ∈ (s.client p).task.clean ∨ j = i)
    (ht : ∀ k l d, t = .iUnpin k l d → d = i) :
    DataInv ({ s with
      disk := update s.disk (s.bc i).dev
        (update (s.disk (s.bc i).dev) (s.bc i).blockno (s.bc i).data)
      touched := update s.touched i false }.setTask p t) := by
  set s' := ({ s with
    disk := update s.disk (s.bc i).dev
      (update (s.disk (s.bc i).dev) (s.bc i).blockno (s.bc i).data)
    touched := update s.touched i false } : BufSys).setTask p t with hs'
  have hself : s'.client p = { s.client p with task := t } := update_self ..
  have hother : ∀ q ≠ p, s'.client q = s.client q := fun q hq => update_of_ne hq ..
  have hdisk : ∀ d b, s'.disk d b =
      if (s.bc i).dev = d ∧ (s.bc i).blockno = b then (s.bc i).data else s.disk d b :=
    update_block s.disk (s.bc i) _
  have hti : s'.touched i = false := update_self ..
  have htouch : ∀ j ≠ i, s'.touched j = s.touched j := fun j hj => update_of_ne hj ..
  have hheldq : ∀ q, (s'.client q).held = (s.client q).held := proj_update Client.held (by rfl)
  have hlt := hi.lt_of_held hheld
  have hpos := hi.refcnt_pos (CacheInv.refs_pos_of_held hheld)
  refine ⟨h.data, fun e y hno => ?_, fun j hj hv htj hp => ?_, h.pinned,
    fun q j hj => h.held q j (hheldq q ▸ hj), fun j htj => ?_, fun q j hj hq => ?_,
    fun q k l e hq => ?_⟩
  · rw [hdisk, if_neg fun hname => ?_]
    · exact h.disk e y hno
    · have hv := hno i ⟨hlt, hname.1, hname.2⟩
      have hv' := h.held p i hheld
      change (s.bc i).valid = false at hv
      rw [hv'] at hv
      exact absurd hv (by simp)
  · change (s.bc j).data = _
    rw [hdisk]
    by_cases hji : j = i
    · subst hji
      exact (if_pos ⟨rfl, rfl⟩).symm
    · rw [if_neg fun hsame => ?_]
      · exact h.clean j hj hv (htouch j hji ▸ htj) hp
      · have hun := (hl.unfilled hlt hj hji hpos hsame).1
        change (s.bc j).valid = true at hv
        rw [hun] at hv
        exact absurd hv (by simp)
  · have hji : j ≠ i := by
      rintro rfl
      rw [hti] at htj
      exact absurd htj (by simp)
    obtain ⟨q, hq⟩ := h.touched j (htouch j hji ▸ htj)
    exact ⟨q, (hheldq q).symm ▸ hq⟩
  · by_cases hji : j = i
    · rw [hji, hti]
    · rw [htouch j hji]
      rw [hheldq] at hq
      by_cases hqp : q = p
      · subst hqp
        rw [hself] at hj
        exact h.settled q j ((hsub j hj).resolve_right hji) hq
      · rw [hother q hqp] at hj
        exact h.settled q j hj hq
  · change (s.bc e).data = s'.disk (s.bc e).dev (s.bc e).blockno
    rw [hdisk]
    by_cases hqp : q = p
    · rw [hqp, hself] at hq
      rw [ht k l e hq]
      exact (if_pos ⟨rfl, rfl⟩).symm
    · rw [hother q hqp] at hq
      have hheld' := held_of_iUnpin hc hq
      rw [if_neg fun hsame => ?_]
      · exact h.installed q k l e hq
      · have hei : e ≠ i := fun hei => hqp (hi.held_unique hheld' (hei ▸ hheld))
        have hun := (hl.unfilled hlt (hi.lt_of_held hheld') hei hpos hsame).2
        have := hi.refcnt_pos (CacheInv.refs_pos_of_held hheld')
        omega

/-- A buffer changes, but not what it holds. -/
lemma update_same {x : Buf} (hx : SameData x (s.bc i)) (j : ℕ) :
    SameData (update s.bc i x j) (s.bc j) :=
  (forall_update_iff s.bc fun j y => SameData y (s.bc j)).mpr ⟨hx, fun _ _ => .refl _⟩ j

lemma refcnt_same (n j : ℕ) : SameData (update s.bc i { s.bc i with refcnt := n } j) (s.bc j) :=
  update_same (x := { s.bc i with refcnt := n }) ⟨⟨rfl, rfl⟩, rfl, rfl⟩ j

lemma lock_same (o : Option ℕ) (j : ℕ) :
    SameData (update s.bc i { s.bc i with lock := o } j) (s.bc j) :=
  update_same (x := { s.bc i with lock := o }) ⟨⟨rfl, rfl⟩, rfl, rfl⟩ j

lemma clean_of_releases (h : t.releases = some i) : i ∈ t.clean := by
  cases t <;> simp_all [CommitPc.clean]

lemma clean_of_moves (h : s.moves t = some t') :
    t'.clean = [] ∧ ∀ k l d, t' ≠ .iUnpin k l d := by
  cases t <;> simp only [BufSys.moves, Option.some.injEq, reduceCtorEq] at h
  all_goals
    split_ifs at h
    all_goals
      first
      | obtain rfl := h
        exact ⟨rfl, by simp⟩
      | obtain rfl := Option.some.inj h
        exact ⟨rfl, by simp⟩

/-- `log_write` pins the block, so it need not be on the disk. -/
lemma logWrite (h : DataInv s) (hi : CacheInv s) (hc : CommitInv s)
    (hheld : i ∈ (s.client p).held) (hd : (s.bc i).dev = s.dev) : DataInv (s.logWrite p i) := by
  have htouch : ∀ j, update s.touched i false j = true → s.touched j = true := by
    intro j hj
    by_cases hji : j = i
    · rw [hji, update_self] at hj
      exact absurd hj (by simp)
    · rwa [update_of_ne hji] at hj
  have hclean : ∀ j < NBUF, (s.bc j).valid = true → update s.touched i false j = false →
      ¬s.LogPinned j → j ≠ i → (s.bc j).data = s.disk (s.bc j).dev (s.bc j).blockno := by
    intro j hj hv htj hp hji
    rw [update_of_ne hji] at htj
    exact h.clean j hj hv htj hp
  rw [BufSys.logWrite]
  dsimp only
  split_ifs with hfull hout habs
  · exact h.panic _
  · exact h.panic _
  · have hpins := hc.idle (hc.not_committing (by omega))
    refine h.of_update rfl rfl rfl (fun _ => .refl _) htouch
      (fun j hj hv htj hp => hclean j hj hv htj hp ?_) h.pinned (h.keeps rfl rfl)
    rintro rfl
    exact hp ⟨hd, hpins ▸ habs⟩
  · refine h.of_update rfl rfl rfl (refcnt_same _) htouch (fun j hj hv htj hp => ?_)
      (fun j hj hp => ?_) (h.keeps rfl rfl)
    · have hname := refcnt_same (s := s) (i := i) ((s.bc i).refcnt + 1) j
      refine hclean j hj hv htj (fun hl => hp ?_) fun hji => hp ?_
      · exact ⟨hname.1.1.trans hl.1, List.mem_append_left _ (hname.1.2.symm ▸ hl.2)⟩
      · subst hji
        exact ⟨hname.1.1.trans hd, List.mem_append_right _
          (List.mem_singleton.mpr hname.1.2)⟩
    · have hname := refcnt_same (s := s) (i := i) ((s.bc i).refcnt + 1) j
      have hdj : (s.bc j).dev = s.dev := hname.1.1.symm.trans hp.1
      rcases List.mem_append.mp hp.2 with hb | hb
      · exact h.pinned j hj ⟨hdj, hname.1.2 ▸ hb⟩
      · have hb := hname.1.2.symm.trans (List.mem_singleton.mp hb)
        obtain rfl : j = i := hi.uniq j i s.dev (s.bc i).blockno hi.dev_ne ⟨hj, hdj, hb⟩
          ⟨hi.lt_of_held hheld, hd, rfl⟩
        exact h.held p j hheld

/-- `install_trans` unpins a block that it has written home. -/
lemma unpin (h : DataInv s) (hi : CacheInv s) (hc : CommitInv s) {lbuf dbuf : ℕ}
    (ht : (s.client p).task = .iUnpin k lbuf dbuf) :
    DataInv ({ s with
        bc := s.bc.bunpin dbuf, logPins := s.logPins.erase (s.bc dbuf).blockno }.setTask p
      (.iDropLog k lbuf dbuf)) := by
  have hname := fun j => refcnt_same (s := s) (i := dbuf) ((s.bc dbuf).refcnt - 1) j
  obtain ⟨hown, hd, -⟩ := hc.bufs p dbuf (s.lh.getD k 0) (by rw [ht]; simp [BufSys.bufs])
  refine h.of_update rfl rfl rfl hname (fun j => id) (fun j hj hv htj hp => ?_)
    (fun j hj hp => ?_) (.of_held rfl (fun j hj => h.settled p j (by rw [ht]; exact hj)) (by simp))
  · by_cases hl : s.LogPinned j
    · obtain rfl : j = dbuf := by
        by_contra hne
        refine hp ⟨(hname j).1.1.trans hl.1, ?_⟩
        refine (List.mem_erase_of_ne fun hb => hne ?_).mpr ((hname j).1.2.symm ▸ hl.2)
        exact hi.uniq j dbuf s.dev (s.bc dbuf).blockno hi.dev_ne ⟨hj, hl.1, (hname j).1.2 ▸ hb⟩
          ⟨hi.bound p dbuf (CacheInv.refs_pos_of_owns hown), hd, rfl⟩
      exact h.installed p k lbuf j ht
    · exact h.clean j hj hv htj hl
  · exact h.pinned j hj ⟨(hname j).1.1.symm.trans hp.1,
      (hname j).1.2 ▸ List.mem_of_mem_erase hp.2⟩

/-- **The data, step by step**, if processes release only buffers that they have written or logged
since they modified them, and log blocks of the log's device. -/
theorem step (h : DataInv s) (hi : CacheInv s) (hc : CommitInv s) (hl : ListInv s)
    (hact : s.Acts p a s') (hrel : ∀ i, a = .brelse p i → s.touched i = false)
    (hlog : ∀ i, a = .logWrite p i → (s.bc i).dev = s.dev) : DataInv s' := by
  cases hact with
  | bread _ d b hcall _ =>
    obtain ⟨l, hord, -⟩ := hl
    rw [BufSys.bread]
    split
    case h_2 => exact h.panic _
    case h_1 i bc hget =>
      cases hord.bget_some hget with
      | hit =>
        exact h.of_same rfl rfl rfl rfl rfl rfl (refcnt_same _) (h.keeps rfl rfl)
      | recycle hlt hmiss href _ => exact h.recycle hi hc hlt hmiss href
  | lock d b i hcall _ =>
    exact h.of_same rfl rfl rfl rfl rfl rfl (lock_same _) (h.keeps rfl rfl)
  | fill d b i hcall hvalid => exact h.fill hi hl hcall hvalid
  | found d b i hcall hvalid =>
    refine h.of_same rfl rfl rfl rfl rfl rfl (fun _ => .refl _) ⟨fun j hj => ?_,
      fun j hj _ => List.mem_cons_of_mem _ hj, fun j hj hheld => ?_, fun _ _ _ => got_eq_iUnpin⟩
    · rcases List.mem_cons.mp hj with rfl | hj
      · exact Or.inr hvalid
      · exact Or.inl hj
    · by_cases hji : j = i
      · rw [hji]
        exact h.untouched_of_locked hi (by rw [hcall]; rfl)
      · exact h.settled p j ((clean_got hj).resolve_right hji) (List.mem_of_ne_of_mem hji hheld)
  | store _ i data t hcall ht =>
    rcases ht with ⟨-, htask, rfl, hheld⟩ | ⟨-, ht⟩
    · exact h.store hi hc hl hheld (by simp [CommitPc.clean]) (by simp [CommitPc.clean]) (by simp)
    · obtain ⟨hclean, hsub, hne⟩ := clean_of_stores ht (hc.distinct p)
      exact h.store hi hc hl (hc.held_of_stores hcall ht) hclean hsub hne
  | bwrite _ i t hcall ht =>
    rw [BufSys.bwrite]
    split_ifs with hlock
    · have hheld := hi.held_of_lock hcall hlock
      rcases ht with ⟨-, htask, rfl⟩ | ⟨-, ht⟩
      · exact h.bwrite hi hc hl hheld (by simp [CommitPc.clean]) (by simp)
      · obtain ⟨hsub, hd⟩ := clean_of_writes ht
        exact h.bwrite hi hc hl hheld hsub hd
    · exact h.panic _
  | brelse _ i hcall ht =>
    rw [BufSys.brelse]
    split_ifs with hlock
    · have hheld := hi.held_of_lock hcall hlock
      have hti : s.touched i = false := by
        rcases ht with ⟨ha, -⟩ | ⟨-, ht⟩
        · exact hrel i ha
        · exact h.settled p i (clean_of_releases ht) hheld
      refine h.of_same rfl rfl rfl rfl rfl rfl (lock_same _)
        ⟨fun j hj => Or.inl (List.mem_of_mem_erase hj), fun j hj htj => ?_,
          fun j hj hheld => h.settled p j hj (List.mem_of_mem_erase hheld), fun _ _ _ => id⟩
      refine (List.mem_erase_of_ne fun hji => ?_).mpr hj
      rw [hji, hti] at htj
      exact absurd htj (by simp)
    · exact h.panic _
  | drop i hcall =>
    refine h.of_same rfl rfl rfl rfl rfl rfl (fun j => ?_) (.of_held rfl
      (fun j hj => h.settled p j (clean_dropped hj)) fun _ _ _ => dropped_eq_iUnpin)
    have hb := Bcache.sameBut_drop s.bc i j
    have hr := refcnt_same (s := s) (i := i) ((s.bc i).refcnt - 1) j
    exact ⟨⟨hb.dev.trans hr.1.1, hb.blockno.trans hr.1.2⟩, hb.valid.trans hr.2.1,
      hb.data.trans hr.2.2⟩
  | logWrite i hfree hheld => exact h.logWrite hi hc hheld (hlog i rfl)
  | bpin | bunpin =>
    exact h.of_same rfl rfl rfl rfl rfl rfl (refcnt_same _) (h.keeps rfl rfl)
  | endOp hfree hop =>
    rw [BufSys.endOp]
    dsimp only
    split_ifs
    · exact ⟨h.data, h.disk, h.clean, h.pinned, h.held, h.touched, h.settled, h.installed⟩
    · exact h.of_same rfl rfl rfl rfl rfl rfl (fun _ => .refl _)
        (.of_held rfl (by simp [CommitPc.clean]) (by simp))
    · exact h.of_same rfl rfl rfl rfl rfl rfl (fun _ => .refl _) (h.keeps rfl rfl)
  | beginOp => exact h.of_same rfl rfl rfl rfl rfl rfl (fun _ => .refl _) (h.keeps rfl rfl)
  | move t hcall hm =>
    obtain ⟨hclean, hne⟩ := clean_of_moves hm
    exact h.of_same rfl rfl rfl rfl rfl rfl (fun _ => .refl _) (.of_held rfl
      (fun j hj => absurd hj (by simp [hclean])) fun k l d ht => absurd ht (hne k l d))
  | unpin k lbuf dbuf hcall ht => exact h.unpin hi hc ht
  | clear | finish =>
    exact h.of_same rfl rfl rfl rfl rfl rfl (fun _ => .refl _)
      (.of_held rfl (by simp [CommitPc.clean]) (by simp))

end DataInv

/-! ## Runs -/

/-- A process that has called nothing yet. -/
def Client.idle : Client :=
  { call := .none, held := [], pins := [], task := .user, inOp := false, logged := [] }

/-- The system after `binit`, with an empty log. -/
structure CacheBooted (s : BufSys) : Prop where
  bc : s.bc = Bcache.zeroed.binit
  dev : s.dev ≠ 0
  client : ∀ p, s.client p = Client.idle
  lh : s.lh = []
  logPins : s.logPins = []
  outstanding : s.outstanding = 0
  committing : s.committing = false
  mem : s.mem = s.disk
  touched : ∀ i, s.touched i = false

/-- A process writes or logs a buffer that it has modified before it releases it, and logs blocks of
the log's device. -/
def Disciplined (s : BufSys) : BufStep → Prop
  | .brelse _ i => s.touched i = false
  | .logWrite _ i => (s.bc i).dev = s.dev
  | _ => True

instance (s : BufSys) (a : BufStep) : Decidable (Disciplined s a) := by
  cases a <;> simp only [Disciplined] <;> infer_instance

/-- The invariants of the cache. -/
structure BufInv (s : BufSys) : Prop where
  cache : CacheInv s
  commit : CommitInv s
  list : ListInv s
  data : DataInv s

namespace BufInv

variable {s s' : BufSys} {a : BufStep}

lemma step (h : BufInv s) (hok : Disciplined s a) (hs : s.step a = some s') : BufInv s' := by
  obtain ⟨-, hp, hact⟩ := BufSys.acts_of_step hs
  have hlog : ∀ i, a = .logWrite a.proc i → (s.bc i).dev = s.dev := by
    intro i ha
    rw [ha] at hok
    exact hok
  have hrel : ∀ i, a = .brelse a.proc i → s.touched i = false := by
    intro i ha
    rw [ha] at hok
    exact hok
  exact ⟨h.cache.step h.commit hp hact hlog, h.commit.step h.cache hp hact,
    h.list.step h.cache h.commit hact, h.data.step h.cache h.commit h.list hact hrel hlog⟩

lemma of_booted (h : CacheBooted s) : BufInv s := by
  have hsame : ∀ i, Bcache.SameBut (Bcache.zeroed i) (s.bc i) := fun i => by
    rw [h.bc]
    exact Bcache.sameBut_binit i
  have hvalid : ∀ i, (s.bc i).valid = false := fun i => (hsame i).valid
  have hrefcnt : ∀ i, (s.bc i).refcnt = 0 := fun i => (hsame i).refcnt
  have hdev : ∀ i, (s.bc i).dev = 0 := fun i => (hsame i).dev
  have hrefs : ∀ p i, (s.client p).refs i = 0 := fun p i => by
    rw [h.client]
    simp [Client.idle, Client.refs]
  have hpinned : ∀ i, ¬s.LogPinned i := fun i hi => by
    rw [BufSys.LogPinned, h.logPins] at hi
    exact absurd hi.2 List.not_mem_nil
  have horder : s.bc.Order (List.range NBUF).reverse := by
    rw [h.bc]
    exact Bcache.order_binit _
  refine ⟨?_, ?_, ?_, ?_⟩
  · refine ⟨⟨_, horder⟩, h.dev, fun i j d b hd hi => ?_, fun p i _ => hrefs p i, fun p i hi => ?_,
      fun i _ => ?_, fun i p => ?_, fun p d b i hp => ?_, fun p => ?_, fun p i hp => ?_,
      fun b hb => ?_⟩
    · exact absurd ((hdev i).symm.trans hi.2.1).symm hd
    · rw [hrefs] at hi
      exact absurd hi (by simp)
    · rw [hrefcnt, BufSys.procRefs, sum_eq_zero fun p _ => hrefs p i]
      simp [BufSys.logRef, h.logPins]
    · rw [(hsame i).lock, h.client]
      simp [Bcache.zeroed, Client.idle]
    · rw [h.client] at hp
      exact absurd hp (by simp [Client.idle])
    · rw [h.client]
      exact List.nodup_nil
    · rw [h.client] at hp
      exact absurd hp (by simp [Client.idle])
    · rw [h.logPins] at hb
      exact absurd hb List.not_mem_nil
  · have htask : ∀ p, (s.client p).task = .user := fun p => by rw [h.client, Client.idle]
    have hop : ∀ p, (s.client p).inOp = false := fun p => by rw [h.client, Client.idle]
    refine ⟨fun p _ => hop p, fun p hp => absurd (htask p) hp, fun p q hp => absurd (htask p) hp,
      ?_, fun _ => h.outstanding, h.lh ▸ List.nodup_nil, fun _ => h.logPins.trans h.lh.symm,
      fun p => ?_, fun p k hk => ?_, fun p i b hb => ?_, fun p => ?_,
      fun p i hp => absurd (htask p) hp, fun p d b i hp => absurd (htask p) hp⟩
    · rw [h.outstanding]
      exact (sum_eq_zero fun p _ => by rw [hop p]; rfl).symm
    · rw [htask p]
      trivial
    · rw [htask p] at hk
      exact absurd hk (by simp [CommitPc.index])
    · rw [htask p] at hb
      exact absurd hb (by simp [BufSys.bufs])
    · rw [htask p]
      exact List.nodup_nil
  · refine ⟨_, horder, ?_⟩
    have hall : ∀ i j, SameBlock (s.bc i) (s.bc j) → Unfilled (s.bc j) := fun i j _ =>
      ⟨hvalid j, hrefcnt j⟩
    exact List.pairwise_of_forall hall
  · refine ⟨fun i _ hv => ?_, fun d b _ => congrFun (congrFun h.mem.symm d) b, fun i _ hv => ?_,
      fun i _ hp => absurd hp (hpinned i), fun p i hi => ?_, fun i ht => ?_, fun p i hi => ?_,
      fun p k l d hp => ?_⟩
    · rw [hvalid i] at hv
      exact absurd hv (by simp)
    · rw [hvalid i] at hv
      exact absurd hv (by simp)
    · rw [h.client] at hi
      exact absurd hi List.not_mem_nil
    · rw [h.touched] at ht
      exact absurd ht (by simp)
    · rw [h.client] at hi
      exact absurd hi (by simp [Client.idle, CommitPc.clean])
    · rw [h.client] at hp
      exact absurd hp (by simp [Client.idle])

/-- `bread` returns the buffer of the block, locked, with what was stored last. -/
lemma bread_returns (h : BufInv s) {p d b i : ℕ} (hcall : (s.client p).call = .reading d b i)
    (hs : s.step (.go p) = some s') :
    (s'.bc i).dev = d ∧ (s'.bc i).blockno = b ∧ (s'.bc i).lock = some p ∧
      i ∈ (s'.client p).held ∧ (s'.bc i).data = s.mem d b := by
  have h' := h.step (a := .go p) trivial hs
  obtain ⟨-, -, hact⟩ := BufSys.acts_of_step hs
  obtain ⟨hd, hb⟩ := h.cache.asked p d b i (by rw [hcall]; rfl)
  have hpos : 0 < (s.client p).refs i := CacheInv.refs_pos_of_call (by rw [hcall]; rfl)
  obtain ⟨hd', hb'⟩ := h.cache.identity hact (h.cache.refcnt_pos hpos)
  have hheld : i ∈ (s'.client p).held ∧ s'.mem = s.mem := by
    unfold BufSys.step at hs
    split_ifs at hs
    simp only [BufSys.go, hcall, Option.some.injEq] at hs
    rw [← hs]
    constructor
    · simp [BufSys.setClient]
    · split_ifs <;> rfl
  have hdata := h'.data.data i (h.cache.bound p i hpos) (h'.data.held p i hheld.1)
  refine ⟨hd'.trans hd, hb'.trans hb, (h'.cache.lock i p).mpr (Or.inl hheld.1), hheld.1, ?_⟩
  rw [hdata, hd', hb', hd, hb, hheld.2]

end BufInv

end Xv6
