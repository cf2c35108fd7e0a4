import Xv6.Lib.Ring
import Xv6.Log.Basic

/-!
# The buffer cache: data

`kernel/bio.c`: the array of buffers, the list through all of them that is sorted by how recently a
buffer was used, and what the critical sections of `bcache.lock` do to them.  Buffers are named by
their index in `bcache.buf`; the index `NBUF` stands for `bcache.head`.
-/

namespace Xv6

open Function List

/-- `struct buf`. -/
structure Buf where
  valid : Bool  -- has data been read from disk?
  dev : ℕ
  blockno : ℕ
  lock : Option ℕ  -- the process that holds `b->lock`
  refcnt : ℕ
  prev : ℕ  -- LRU cache list
  next : ℕ
  data : Block

/-- `bcache.buf[0..NBUF)`, and `bcache.head` at `NBUF`. -/
abbrev Bcache := ℕ → Buf

namespace Bcache

def nextOf (bc : Bcache) (i : ℕ) : ℕ := (bc i).next

def prevOf (bc : Bcache) (i : ℕ) : ℕ := (bc i).prev

/-- `b->next = v`. -/
def setNext (bc : Bcache) (b v : ℕ) : Bcache := update bc b { bc b with next := v }

/-- `b->prev = v`. -/
def setPrev (bc : Bcache) (b v : ℕ) : Bcache := update bc b { bc b with prev := v }

/-- Put `b` at the head of the most-recently-used list. -/
def pushFront (bc : Bcache) (b : ℕ) : Bcache :=
  let bc := bc.setNext b (bc.nextOf NBUF)
  let bc := bc.setPrev b NBUF
  let bc := bc.setPrev (bc.nextOf NBUF) b
  bc.setNext NBUF b

/-- Take `b` out of the list. -/
def unlink (bc : Bcache) (b : ℕ) : Bcache :=
  let bc := bc.setPrev (bc.nextOf b) (bc.prevOf b)
  bc.setNext (bc.prevOf b) (bc.nextOf b)

/-- The memory of the cache before `binit`, all zero. -/
def zeroed : Bcache := fun _ =>
  { valid := false, dev := 0, blockno := 0, lock := none, refcnt := 0, prev := 0, next := 0
    data := fun _ => 0 }

/-- `binit`: the list of the buffers, each put in front of those before it. -/
def binit (bc : Bcache) : Bcache :=
  (List.range NBUF).foldl pushFront ((bc.setPrev NBUF NBUF).setNext NBUF NBUF)

/-- The critical section of `bget`: the buffer for the block, with a reference more.  `none` is the
panic `bget: no buffers`. -/
def bget (bc : Bcache) (dev blockno : ℕ) : Option (ℕ × Bcache) :=
  -- Is the block already cached?
  match ringWalk bc.nextOf NBUF (fun i => (bc i).dev == dev && (bc i).blockno == blockno) (NBUF + 1)
      (bc.nextOf NBUF) with
  | some i => some (i, update bc i { bc i with refcnt := (bc i).refcnt + 1 })
  | none =>
    -- Recycle the least recently used unused buffer.
    match ringWalk bc.prevOf NBUF (fun i => (bc i).refcnt == 0) (NBUF + 1) (bc.prevOf NBUF) with
    | some i => some (i, update bc i
        { bc i with dev := dev, blockno := blockno, valid := false, refcnt := 1 })
    | none => none

/-- The critical section of `brelse`: a reference less, and a buffer that nobody is waiting for goes
to the head of the list. -/
def drop (bc : Bcache) (b : ℕ) : Bcache :=
  let bc : Bcache := update bc b { bc b with refcnt := (bc b).refcnt - 1 }
  if (bc b).refcnt = 0 then (bc.unlink b).pushFront b else bc

/-- `bpin`. -/
def bpin (bc : Bcache) (b : ℕ) : Bcache :=
  update bc b { bc b with refcnt := (bc b).refcnt + 1 }

/-- `bunpin`. -/
def bunpin (bc : Bcache) (b : ℕ) : Bcache :=
  update bc b { bc b with refcnt := (bc b).refcnt - 1 }

/-! ## The list -/

/-- The buffers in the order of the list, from `head.next` on. -/
def Order (bc : Bcache) (l : List ℕ) : Prop :=
  IsRing bc.nextOf bc.prevOf NBUF l ∧ ∀ i, i ∈ l ↔ i < NBUF

variable {bc : Bcache} {l : List ℕ} {b v : ℕ}

lemma nextOf_setNext : (bc.setNext b v).nextOf = update bc.nextOf b v := by
  funext i
  by_cases hi : i = b
  · subst hi
    simp [nextOf, setNext]
  · simp [nextOf, setNext, hi]

lemma prevOf_setNext : (bc.setNext b v).prevOf = bc.prevOf := by
  funext i
  by_cases hi : i = b
  · subst hi
    simp [prevOf, setNext]
  · simp [prevOf, setNext, hi]

lemma nextOf_setPrev : (bc.setPrev b v).nextOf = bc.nextOf := by
  funext i
  by_cases hi : i = b
  · subst hi
    simp [nextOf, setPrev]
  · simp [nextOf, setPrev, hi]

lemma prevOf_setPrev : (bc.setPrev b v).prevOf = update bc.prevOf b v := by
  funext i
  by_cases hi : i = b
  · subst hi
    simp [prevOf, setPrev]
  · simp [prevOf, setPrev, hi]

lemma isRing_pushFront (h : IsRing bc.nextOf bc.prevOf NBUF l) (hb : b ∉ NBUF :: l) :
    IsRing (bc.pushFront b).nextOf (bc.pushFront b).prevOf NBUF (b :: l) := by
  have hne : NBUF ≠ b := fun heq => hb (heq ▸ mem_cons_self)
  have hpush := h.push hb
  simp only [pushFront, nextOf_setNext, nextOf_setPrev, prevOf_setNext, prevOf_setPrev,
    update_of_ne hne]
  exact hpush

lemma isRing_unlink {l₁ l₂ : List ℕ} (h : IsRing bc.nextOf bc.prevOf NBUF (l₁ ++ b :: l₂)) :
    IsRing (bc.unlink b).nextOf (bc.unlink b).prevOf NBUF (l₁ ++ l₂) := by
  have hne : bc.nextOf b ≠ b := h.next_ne
  have hunlink := h.unlink
  simp only [unlink, nextOf_setNext, nextOf_setPrev, prevOf_setNext, prevOf_setPrev,
    update_of_ne hne.symm]
  exact hunlink

/-- An update that leaves the pointers alone. -/
lemma pointers_update {x : Buf} (hnext : x.next = (bc b).next) (hprev : x.prev = (bc b).prev) :
    nextOf (update bc b x) = bc.nextOf ∧ prevOf (update bc b x) = bc.prevOf := by
  constructor <;> funext i <;> by_cases hi : i = b
  · subst hi
    simp [nextOf, hnext]
  · simp [nextOf, hi]
  · subst hi
    simp [prevOf, hprev]
  · simp [prevOf, hi]

lemma Order.update {x : Buf} (h : bc.Order l) (hnext : x.next = (bc b).next)
    (hprev : x.prev = (bc b).prev) : Order (update bc b x) l := by
  obtain ⟨hn, hp⟩ := pointers_update hnext hprev
  rw [Order, hn, hp]
  exact h

/-- `brelse` keeps the list, and moves an unused buffer to its head. -/
lemma Order.drop (h : bc.Order l) (hb : b < NBUF) : ∃ l', (bc.drop b).Order l' ∧
    (l' = l ∨ ∃ l₁ l₂, l = l₁ ++ b :: l₂ ∧ l' = b :: (l₁ ++ l₂)) := by
  have h' : Order (Function.update bc b { bc b with refcnt := (bc b).refcnt - 1 }) l :=
    h.update rfl rfl
  rw [Bcache.drop]
  split
  case isFalse => exact ⟨l, h', Or.inl rfl⟩
  case isTrue =>
    obtain ⟨l₁, l₂, rfl⟩ := append_of_mem ((h'.2 b).mpr hb)
    obtain ⟨hb₁, hb₂⟩ := h'.1.notMem
    have hunlink := isRing_unlink h'.1
    refine ⟨b :: (l₁ ++ l₂), ⟨isRing_pushFront hunlink ?_, fun i => ?_⟩, Or.inr ⟨l₁, l₂, rfl, rfl⟩⟩
    · simp only [mem_cons, mem_append] at hb₁ hb₂ ⊢
      tauto
    · rw [← h'.2 i]
      simp only [mem_cons, mem_append]
      tauto

/-- `binit` links all buffers into the list. -/
lemma order_binit (bc : Bcache) : bc.binit.Order (range NBUF).reverse := by
  have hinit : IsRing ((bc.setPrev NBUF NBUF).setNext NBUF NBUF).nextOf
      ((bc.setPrev NBUF NBUF).setNext NBUF NBUF).prevOf NBUF [] := by
    refine ⟨by simp, ?_⟩
    simp [nextOf_setNext, nextOf_setPrev, prevOf_setNext, prevOf_setPrev]
  have hfold : ∀ n ≤ NBUF, IsRing
      ((range n).foldl pushFront ((bc.setPrev NBUF NBUF).setNext NBUF NBUF)).nextOf
      ((range n).foldl pushFront ((bc.setPrev NBUF NBUF).setNext NBUF NBUF)).prevOf NBUF
      (range n).reverse := by
    intro n hn
    induction n with
    | zero => exact hinit
    | succ n ih =>
      rw [range_succ, foldl_append, reverse_append]
      have hmem : n ∉ NBUF :: (range n).reverse := by
        simp only [mem_cons, mem_reverse, mem_range]
        omega
      exact isRing_pushFront (ih (by omega)) hmem
  exact ⟨hfold NBUF le_rfl, by simp⟩

/-! ## What the sections do -/

/-- Two buffers that differ in their pointers only. -/
structure SameBut (x y : Buf) : Prop where
  valid : y.valid = x.valid
  dev : y.dev = x.dev
  blockno : y.blockno = x.blockno
  lock : y.lock = x.lock
  refcnt : y.refcnt = x.refcnt
  data : y.data = x.data

lemma SameBut.rfl {x : Buf} : SameBut x x :=
  ⟨Eq.refl _, Eq.refl _, Eq.refl _, Eq.refl _, Eq.refl _, Eq.refl _⟩

lemma SameBut.trans {x y z : Buf} (h : SameBut x y) (h' : SameBut y z) : SameBut x z :=
  ⟨h'.1.trans h.1, h'.2.trans h.2, h'.3.trans h.3, h'.4.trans h.4, h'.5.trans h.5, h'.6.trans h.6⟩

lemma sameBut_update {x : Buf} (hx : SameBut (bc b) x) (i : ℕ) : SameBut (bc i) (update bc b x i) :=
  (forall_update_iff bc fun j y => SameBut (bc j) y).mpr ⟨hx, fun _ _ => .rfl⟩ i

lemma sameBut_setNext (i : ℕ) : SameBut (bc i) (bc.setNext b v i) :=
  sameBut_update (x := { bc b with next := v }) ⟨rfl, rfl, rfl, rfl, rfl, rfl⟩ i

lemma sameBut_setPrev (i : ℕ) : SameBut (bc i) (bc.setPrev b v i) :=
  sameBut_update (x := { bc b with prev := v }) ⟨rfl, rfl, rfl, rfl, rfl, rfl⟩ i

lemma sameBut_pushFront (i : ℕ) : SameBut (bc i) (bc.pushFront b i) :=
  (((sameBut_setNext i).trans (sameBut_setPrev i)).trans (sameBut_setPrev i)).trans
    (sameBut_setNext i)

lemma sameBut_unlink (i : ℕ) : SameBut (bc i) (bc.unlink b i) :=
  (sameBut_setPrev i).trans (sameBut_setNext i)

lemma sameBut_binit (i : ℕ) : SameBut (bc i) (bc.binit i) := by
  have hfold : ∀ (bs : List ℕ) (c : Bcache), SameBut (c i) (bs.foldl pushFront c i) := by
    intro bs
    induction bs with
    | nil => exact fun c => .rfl
    | cons b bs ih => exact fun c => (sameBut_pushFront i).trans (ih _)
  exact ((sameBut_setPrev i).trans (sameBut_setNext i)).trans (hfold _ _)

/-- `brelse` takes a reference from one buffer, and changes nothing but pointers otherwise. -/
lemma sameBut_drop (bc : Bcache) (b i : ℕ) : SameBut
    (update bc b { bc b with refcnt := (bc b).refcnt - 1 } i) (bc.drop b i) := by
  rw [drop]
  split
  · exact (sameBut_unlink i).trans (sameBut_pushFront i)
  · exact .rfl

/-- The buffer `i` holds the block. -/
def Caches (bc : Bcache) (i dev blockno : ℕ) : Prop :=
  i < NBUF ∧ (bc i).dev = dev ∧ (bc i).blockno = blockno

/-- What `bget` does when it returns. -/
inductive BgetAct (bc : Bcache) (l : List ℕ) (dev blockno i : ℕ) : Bcache → Prop
  | hit (h : bc.Caches i dev blockno)
    (hfirst : l.find? (fun j => (bc j).dev == dev && (bc j).blockno == blockno) = some i) :
    BgetAct bc l dev blockno i (update bc i { bc i with refcnt := (bc i).refcnt + 1 })
  | recycle (hlt : i < NBUF) (hmiss : ∀ j, ¬bc.Caches j dev blockno) (href : (bc i).refcnt = 0)
    (hlru : l.reverse.find? (fun j => (bc j).refcnt == 0) = some i) :
    BgetAct bc l dev blockno i (update bc i
      { bc i with dev := dev, blockno := blockno, valid := false, refcnt := 1 })

section

variable (h : bc.Order l)
include h

lemma Order.length_lt : l.length < NBUF + 1 := by
  have hsub : l ⊆ range NBUF := fun i hi => mem_range.mpr ((h.2 i).mp hi)
  have hle := (subperm_of_subset (nodup_cons.mp h.1.nodup).2 hsub).length_le
  rw [length_range] at hle
  omega

lemma Order.bget_eq (dev blockno : ℕ) : bc.bget dev blockno =
    match l.find? (fun i => (bc i).dev == dev && (bc i).blockno == blockno) with
    | some i => some (i, Function.update bc i { bc i with refcnt := (bc i).refcnt + 1 })
    | none =>
      match l.reverse.find? (fun i => (bc i).refcnt == 0) with
      | some i => some (i, Function.update bc i
          { bc i with dev := dev, blockno := blockno, valid := false, refcnt := 1 })
      | none => none := by
  rw [bget, h.1.ringWalk_next _ h.length_lt, h.1.ringWalk_prev _ h.length_lt]

lemma Order.not_caches {dev blockno : ℕ}
    (hn : l.find? (fun i => (bc i).dev == dev && (bc i).blockno == blockno) = none) (j : ℕ) :
    ¬bc.Caches j dev blockno := by
  rintro ⟨hj, hd, hb⟩
  have := List.find?_eq_none.mp hn j ((h.2 j).mpr hj)
  simp [hd, hb] at this

/-- **`bget`.**  It returns the buffer that caches the block; if there is none, the unused buffer
nearest to `head.prev`, made over to the block. -/
lemma Order.bget_some {dev blockno i : ℕ} {bc' : Bcache}
    (hs : bc.bget dev blockno = some (i, bc')) : BgetAct bc l dev blockno i bc' := by
  rw [h.bget_eq] at hs
  split at hs
  case h_1 j hj =>
    obtain ⟨rfl, rfl⟩ := Prod.mk.inj (Option.some.inj hs)
    have hp := List.find?_some hj
    rw [Bool.and_eq_true, beq_iff_eq, beq_iff_eq] at hp
    exact .hit ⟨(h.2 j).mp (List.mem_of_find?_eq_some hj), hp.1, hp.2⟩ hj
  case h_2 hn =>
    split at hs
    case h_1 j hj =>
      obtain ⟨rfl, rfl⟩ := Prod.mk.inj (Option.some.inj hs)
      have hmem := mem_reverse.mp (List.mem_of_find?_eq_some hj)
      exact .recycle ((h.2 j).mp hmem) (h.not_caches hn) (by simpa using List.find?_some hj) hj
    case h_2 => exact absurd hs (by simp)

/-- `bget` panics only if the block is not cached and all buffers are in use. -/
lemma Order.bget_none {dev blockno : ℕ} (hs : bc.bget dev blockno = none) :
    (∀ j, ¬bc.Caches j dev blockno) ∧ ∀ j < NBUF, (bc j).refcnt ≠ 0 := by
  rw [h.bget_eq] at hs
  split at hs
  case h_1 => exact absurd hs (by simp)
  case h_2 hn =>
    split at hs
    case h_1 => exact absurd hs (by simp)
    case h_2 hr =>
      refine ⟨h.not_caches hn, fun j hj => ?_⟩
      have := List.find?_eq_none.mp hr j (mem_reverse.mpr ((h.2 j).mpr hj))
      simpa using this

end

end Bcache

end Xv6
