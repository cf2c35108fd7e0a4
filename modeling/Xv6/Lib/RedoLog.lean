import Mathlib

/-!
# Redo logs

A disk is a map from addresses to values and a program that writes to it is the list of its
writes in order; a crash keeps a prefix of the list.  A *redo log* reserves an area of the disk
from which a list of pending writes can be read back.  Recovery performs the pending writes and
then erases them; a commit fills the area, makes the writes pending with a single write, performs
them and erases them.

The meaning of a disk is its `image`: what its blocks outside the area hold once the pending
writes have been performed.  Two facts say what the log is for.

* `RedoLog.image_recovery_take`: no prefix of a recovery changes the image, so recovery may be
  interrupted and restarted any number of times.
* `RedoLog.Commit.image_take`: a prefix of a commit leaves either the old image or the image
  with all the writes performed, and which of the two is decided by one write.
-/

namespace Xv6

open List

/-! ## Lists of writes -/

section Writes

variable {A β : Type*} [DecidableEq A]

/-- The disk after one write. -/
def write (d : A → β) (w : A × β) : A → β := Function.update d w.1 w.2

/-- The disk after a list of writes, in order. -/
def writes (d : A → β) (ws : List (A × β)) : A → β := ws.foldl write d

@[simp] lemma writes_nil (d : A → β) : writes d [] = d := rfl

@[simp] lemma writes_cons (d : A → β) (w : A × β) (ws : List (A × β)) :
    writes d (w :: ws) = writes (write d w) ws := rfl

lemma writes_append (d : A → β) (ws vs : List (A × β)) :
    writes d (ws ++ vs) = writes (writes d ws) vs := foldl_append

lemma write_self (d : A → β) (w : A × β) : write d w w.1 = w.2 := Function.update_self ..

variable {d : A → β} {w : A × β} {a : A} {ws : List (A × β)}

lemma write_of_ne (h : w.1 ≠ a) : write d w a = d a :=
  Function.update_of_ne h.symm ..

/-- An address that is only overwritten with its own value keeps it. -/
lemma writes_of_forall_eq {v : β} (hd : d a = v)
    (h : ∀ w ∈ ws, w.1 = a → w.2 = v) : writes d ws a = v := by
  induction ws generalizing d with
  | nil => exact hd
  | cons w ws ih =>
    refine ih ?_ fun u hu => h u (mem_cons_of_mem _ hu)
    by_cases hw : w.1 = a
    · rw [← hw, write_self]
      exact h w mem_cons_self hw
    · rw [write_of_ne hw, hd]

/-- An address that is not written keeps its value. -/
lemma writes_of_notMem (h : ∀ w ∈ ws, w.1 ≠ a) :
    writes d ws a = d a :=
  writes_of_forall_eq rfl fun w hw heq => absurd heq (h w hw)

/-- What an address holds after a list of writes was there before or has been written. -/
lemma writes_eq_or_mem (d : A → β) (ws : List (A × β)) (a : A) :
    writes d ws a = d a ∨ (a, writes d ws a) ∈ ws := by
  induction ws generalizing d with
  | nil => exact Or.inl rfl
  | cons w ws ih =>
    rw [writes_cons]
    rcases ih (write d w) with h | h
    · by_cases hw : w.1 = a
      · subst hw
        rw [h, write_self]
        exact Or.inr mem_cons_self
      · rw [h, write_of_ne hw]
        exact Or.inl rfl
    · exact Or.inr (mem_cons_of_mem _ h)

/-- What an address holds after a list of writes depends on the disk before only if the list
does not write it. -/
lemma writes_congr {d' : A → β}
    (h : (∃ w ∈ ws, w.1 = a) ∨ d a = d' a) : writes d ws a = writes d' ws a := by
  induction ws generalizing d d' with
  | nil => simpa using h
  | cons w ws ih =>
    refine ih ?_
    by_cases hw : w.1 = a
    · right
      rw [← hw, write_self, write_self]
    · rcases h with ⟨v, hv, hva⟩ | h
      · rcases mem_cons.mp hv with rfl | hv
        · exact absurd hva hw
        · exact Or.inl ⟨v, hv, hva⟩
      · right
        rw [write_of_ne hw, write_of_ne hw, h]

/-- With distinct addresses every write of the list is found on the disk afterwards. -/
lemma writes_of_mem (hnd : (ws.map Prod.fst).Nodup) (hw : w ∈ ws) : writes d ws w.1 = w.2 := by
  induction ws generalizing d with
  | nil => exact absurd hw not_mem_nil
  | cons v ws ih =>
    obtain ⟨hv, hnd⟩ := nodup_cons.mp hnd
    rcases mem_cons.mp hw with rfl | hw
    · rw [writes_cons, writes_of_notMem, write_self]
      intro u hu heq
      exact hv (heq ▸ mem_map_of_mem hu)
    · exact ih hnd hw

/-- Performing a list of writes over one of its own prefixes is performing it once. -/
lemma writes_writes_take (d : A → β) (ws : List (A × β)) (k : ℕ) :
    writes (writes d (ws.take k)) ws = writes d ws := by
  funext a
  refine writes_congr ?_
  by_cases h : ∃ w ∈ ws, w.1 = a
  · exact Or.inl h
  · right
    exact writes_of_notMem fun w hw heq => h ⟨w, mem_of_mem_take hw, heq⟩

end Writes

/-! ## The log -/

/-- A redo log on disks `A → β`. -/
structure RedoLog (A β : Type*) [DecidableEq A] where
  -- the addresses reserved for the log
  area : Set A
  -- the writes that a disk says are still to be performed
  pending : (A → β) → List (A × β)
  -- only the log area says which writes are pending
  pending_congr : ∀ {d d' : A → β}, (∀ a ∈ area, d a = d' a) → pending d = pending d'
  -- the write that erases the pending writes
  clear : (A → β) → A × β
  -- it goes to the log area
  clear_mem_area : ∀ d, (clear d).1 ∈ area
  -- it erases the pending writes
  pending_clear : ∀ d, pending (write d (clear d)) = []

namespace RedoLog

variable {A β : Type*} [DecidableEq A] (L : RedoLog A β)

/-- What a disk holds once its pending writes have been performed. -/
def image (d : A → β) : A → β := writes d (L.pending d)

/-- All pending writes go outside the log area. -/
def Homed (d : A → β) : Prop := ∀ w ∈ L.pending d, w.1 ∉ L.area

/-- The writes of a recovery: perform the pending ones, then erase them. -/
def recovery (d : A → β) : List (A × β) := L.pending d ++ [L.clear d]

/-- Two disks that agree outside the log area. -/
def SameHome (d d' : A → β) : Prop := ∀ a ∉ L.area, d a = d' a

variable {L} {d d' d'' : A → β}

lemma SameHome.rfl : L.SameHome d d := fun _ _ => Eq.refl _

lemma SameHome.trans (h : L.SameHome d d') (h' : L.SameHome d' d'') : L.SameHome d d'' :=
  fun a ha => (h a ha).trans (h' a ha)

/-- Writes inside the area are invisible outside it. -/
lemma sameHome_writes_area {ws : List (A × β)} (h : ∀ w ∈ ws, w.1 ∈ L.area) :
    L.SameHome (writes d ws) d := fun _ ha =>
  writes_of_notMem fun w hw heq => ha (heq ▸ h w hw)

lemma SameHome.writes (h : L.SameHome d d') (ws : List (A × β)) :
    L.SameHome (Xv6.writes d ws) (Xv6.writes d' ws) :=
  fun a ha => writes_congr (Or.inr (h a ha))

/-- Writes outside the area do not change what is pending. -/
lemma pending_writes {ws : List (A × β)} (h : ∀ w ∈ ws, w.1 ∉ L.area) :
    L.pending (writes d ws) = L.pending d :=
  L.pending_congr fun _ ha => writes_of_notMem fun w hw heq => h w hw (heq ▸ ha)

/-- On a disk with nothing pending the image is the disk. -/
lemma image_of_pending_nil (h : L.pending d = []) : L.image d = d := by
  rw [image, h, writes_nil]

lemma homed_of_pending_nil (h : L.pending d = []) : L.Homed d := by
  intro w hw
  rw [h] at hw
  exact absurd hw not_mem_nil

/-- The disk after some of the pending writes has the same writes pending, and the same
image. -/
lemma image_writes_pending_take (h : L.Homed d) (k : ℕ) :
    L.pending (writes d ((L.pending d).take k)) = L.pending d ∧
      L.image (writes d ((L.pending d).take k)) = L.image d := by
  have hp : L.pending (writes d ((L.pending d).take k)) = L.pending d :=
    pending_writes fun w hw => h w (mem_of_mem_take hw)
  refine ⟨hp, ?_⟩
  rw [image, hp, writes_writes_take, image]

/-- A recovery that ran to its end: nothing is pending and the disk is its former image. -/
lemma recovery_complete (h : L.Homed d) :
    L.pending (writes d (L.recovery d)) = [] ∧
      L.SameHome (writes d (L.recovery d)) (L.image d) := by
  -- The erasing write is computed from the area, which the pending writes do not touch.
  have hclear : ∀ a ∈ L.area, writes d (L.pending d) a = d a := fun a ha =>
    writes_of_notMem fun w hw heq => h w hw (heq ▸ ha)
  have hsplit : writes d (L.recovery d) = write (writes d (L.pending d)) (L.clear d) := by
    rw [recovery, writes_append]
    rfl
  rw [hsplit]
  constructor
  · rw [← L.pending_clear d]
    refine L.pending_congr fun a ha => ?_
    change writes (writes d (L.pending d)) [L.clear d] a = writes d [L.clear d] a
    exact writes_congr (Or.inr (hclear a ha))
  · intro a ha
    exact write_of_ne fun heq => ha (heq ▸ L.clear_mem_area d)

/-- **A crash during recovery loses nothing.**  Whatever prefix of a recovery reached the disk,
the pending writes still go outside the area and the image is the one before. -/
theorem image_recovery_take (h : L.Homed d) (k : ℕ) :
    L.Homed (writes d ((L.recovery d).take k)) ∧
      L.SameHome (L.image (writes d ((L.recovery d).take k))) (L.image d) := by
  by_cases hk : k ≤ (L.pending d).length
  · rw [recovery, take_append_of_le_length hk]
    obtain ⟨hp, hi⟩ := image_writes_pending_take h k
    refine ⟨fun w hw => h w (hp ▸ hw), ?_⟩
    rw [hi]
    exact SameHome.rfl
  · rw [take_of_length_le (by simp [recovery]; omega)]
    obtain ⟨hp, hd⟩ := recovery_complete h
    refine ⟨homed_of_pending_nil hp, ?_⟩
    rw [image_of_pending_nil hp]
    exact hd

/-! ## Commits -/

/-- How a commit prepares the writes `t` on a disk with nothing pending: it fills the log with
`log`, during which nothing becomes pending, and one write `head` makes `t` pending. -/
structure Commit (L : RedoLog A β) (d : A → β) (t : List (A × β)) where
  -- the writes that fill the log
  log : List (A × β)
  -- the write that commits
  head : A × β
  log_mem_area : ∀ w ∈ log, w.1 ∈ L.area
  pending_log : ∀ k, L.pending (writes d (log.take k)) = []
  head_mem_area : head.1 ∈ L.area
  pending_head : L.pending (write (writes d log) head) = t
  homed : ∀ w ∈ t, w.1 ∉ L.area

namespace Commit

variable {t : List (A × β)} (C : L.Commit d t)

/-- The disk on which the transaction is committed and none of its writes performed. -/
def committed : A → β := write (writes d C.log) C.head

/-- All the writes of the commit. -/
def all : List (A × β) := C.log ++ C.head :: L.recovery C.committed

lemma homed_committed : L.Homed C.committed := by
  intro w hw
  exact C.homed w (C.pending_head ▸ hw)

lemma sameHome_committed : L.SameHome C.committed d := by
  have hhead : L.SameHome C.committed (writes d C.log) := fun a ha =>
    write_of_ne fun heq => ha (heq ▸ C.head_mem_area)
  exact hhead.trans (sameHome_writes_area C.log_mem_area)

/-- The image of the committed disk has all the writes performed. -/
lemma image_committed : L.SameHome (L.image C.committed) (writes d t) := by
  rw [image, show L.pending C.committed = t from C.pending_head]
  exact C.sameHome_committed.writes t

/-- From the committing write on, a commit runs a recovery of the committed disk. -/
lemma writes_all_take (j : ℕ) : writes d (C.all.take (C.log.length + (j + 1))) =
    writes C.committed ((L.recovery C.committed).take j) := by
  rw [all, take_length_add_append, take_succ_cons, writes_append, writes_cons]
  rfl

/-- **A commit is atomic.**  Whatever prefix of its writes reached the disk, the image is the
old disk as long as the committing write is missing, and the disk with all of `t` written from
then on. -/
theorem image_take (k : ℕ) :
    L.Homed (writes d (C.all.take k)) ∧
      L.SameHome (L.image (writes d (C.all.take k)))
        (if k ≤ C.log.length then d else writes d t) := by
  by_cases hk : k ≤ C.log.length
  · have hp := C.pending_log k
    rw [if_pos hk, all, take_append_of_le_length hk]
    refine ⟨homed_of_pending_nil hp, ?_⟩
    rw [image_of_pending_nil hp]
    exact sameHome_writes_area fun w hw => C.log_mem_area w (mem_of_mem_take hw)
  · obtain ⟨j, rfl⟩ : ∃ j, k = C.log.length + (j + 1) := ⟨k - C.log.length - 1, by omega⟩
    rw [if_neg hk, C.writes_all_take]
    obtain ⟨hh, hi⟩ := image_recovery_take C.homed_committed j
    exact ⟨hh, hi.trans C.image_committed⟩

/-- A commit that ran to its end leaves nothing pending and all of `t` written. -/
theorem complete : L.pending (writes d C.all) = [] ∧ L.SameHome (writes d C.all) (writes d t) := by
  have hall : writes d C.all = writes C.committed (L.recovery C.committed) := by
    rw [all, writes_append, writes_cons]
    rfl
  rw [hall]
  obtain ⟨hp, hd⟩ := recovery_complete C.homed_committed
  exact ⟨hp, hd.trans C.image_committed⟩

end Commit
end RedoLog
end Xv6
