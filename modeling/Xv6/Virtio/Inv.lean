import Xv6.Lib.Window
import Xv6.Virtio.Basic

/-!
# Descriptors, buffers and rings

The positions tell which descriptors a caller has (`Pc.held`) and which request it waits for
(`Pc.waiting`).  `Descs` says that a descriptor is free or has one owner, `Bufs` that no two callers
have one buffer, `Pc.Here` what a caller has written where it is, and `Rings` where the submitted
requests are: in the avail ring, with the device, or in the used ring, each of them once.

The last lets a handler be in the middle of an entry: it has cleared the flag of the buffer, but the
entry is still in the ring.
-/

namespace Xv6

namespace Virtio

open Function

/-! ## The actions -/

lemma Disk.allocDesc_some {x x' : Disk} {i : ℕ} (h : x.allocDesc = some (i, x')) :
    i < NUM ∧ x.free i = true ∧ x' = { x with free := update x.free i false } := by
  rw [Disk.allocDesc] at h
  split at h
  case h_1 j hj =>
    cases h
    obtain ⟨hlt, hfree⟩ := find_range hj
    exact ⟨hlt, hfree, rfl⟩
  case h_2 => cases h

lemma Disk.allocDesc_none {x : Disk} (h : x.allocDesc = none) {i : ℕ} (hi : i < NUM) :
    x.free i = false := by
  rw [Disk.allocDesc] at h
  split at h
  case h_1 => cases h
  case h_2 hj =>
    have := List.find?_eq_none.mp hj i (List.mem_range.mpr hi)
    simpa using this

lemma Disk.freeDesc_ok {x x' : Disk} {i : ℕ} (h : x.freeDesc i = .ok x') :
    i < NUM ∧ x.free i = false ∧
      x' = { x with
        desc := update x.desc i {}, free := update x.free i true } := by
  rw [Disk.freeDesc] at h
  split at h
  · cases h
  · split at h
    · cases h
    · cases h
      exact ⟨by omega, by simpa using ‹¬x.free i = true›, rfl⟩

/-- What an action can do. -/
inductive Act : Pc → Disk → Pc → Disk → Prop
  | call (b write x) (h : x.locked b = false) :
    Act .out x (.rAcquire b write) { x with locked := update x.locked b true }
  | fail (b write idx x) (h : x.allocDesc = none) :
    Act (.rAlloc b write idx) x (.rUndo b write idx) x
  | alloc (b write idx i x x') (hlen : idx.length < 2) (h : x.allocDesc = some (i, x')) :
    Act (.rAlloc b write idx) x (.rAlloc b write (idx ++ [i])) x'
  | alloc3 (b write i0 i1 l i x x') (h : x.allocDesc = some (i, x')) :
    Act (.rAlloc b write (i0 :: i1 :: l)) x (.rFormat b write ⟨i0, i1, i⟩) x'
  | undone (b write x) : Act (.rUndo b write []) x (.rPrepare b write) x
  | undo (b write j js x x') (h : x.freeDesc j = .ok x') :
    Act (.rUndo b write (j :: js)) x (.rUndoWake b write js) x'
  | format (b write c x) : Act (.rFormat b write c) x (.rInfo b c) (x.format b write c)
  | info (b c x) : Act (.rInfo b c) x (.rRing b c) ((x.setDisk b 1).setInfo c.i0 (some b))
  | ring (b c x) : Act (.rRing b c) x (.rIdx b c) (x.setRing c.i0)
  | submit (b c x) : Act (.rIdx b c) x (.wTest ⟨b, c, x.nsub⟩) (x.submit c.i0)
  | wait (r x) (h : (x.buf r.b).disk = 1) : Act (.wTest r) x (.wPrepare r) x
  | done (r x) (h : (x.buf r.b).disk ≠ 1) : Act (.wTest r) x (.wDone r) x
  | clear (r x) : Act (.wDone r) x (.fChain r r.idx.i0) (x.setInfo r.idx.i0 none)
  | freeChain (r i x x') (h : x.freeDesc i = .ok x') :
    Act (.fChain r i) x
      (.fWake r (if (x.desc i).flags &&& VRING_DESC_F_NEXT ≠ 0 then some (x.desc i).next else none))
      x'
  | ret (r x) : Act (.rReturn r) x .out { x with locked := update x.locked r.b false }
  | irq (x) : Act .iOut x .iAcquire x
  | more (x) (h : x.usedIdx ≠ x.used.idx) : Act .iTest x .iRead x
  | noMore (x) (h : x.usedIdx = x.used.idx) : Act .iTest x .iRelease x
  | read (b x) (hb : (x.info x.usedId).b = some b) : Act .iRead x (.iWake b) (x.setDisk b 0)
  | next (x) : Act .iNext x .iTest { x with usedIdx := x.usedIdx + 1 }
  | consume (x) (h : x.dev.idx ≠ x.avail.idx) : Act .dev x .dev x.consume
  | complete (id x) (h : id ∈ x.dev.pending) : Act .dev x .dev (x.complete id)

lemma act_of_next {a : Chans} {l l' : Pc} {x x' : Disk} {ch : Choice}
    {f : Disk → Choice → Outcome Disk Pc} (hf : code a l = .act f) (h : f x ch = .next x' l') :
    Act l x l' x' := by
  cases l with
  | out =>
    cases hf
    cases ch with
    | rw b write =>
      dsimp only at h
      split at h
      · cases h
      · cases h
        exact .call b write x (by simpa using ‹¬x.locked b = true›)
    | _ => cases h
  | rAlloc b write idx =>
    cases hf
    dsimp only at h
    split at h
    case h_1 hn =>
      cases h
      exact .fail b write idx x hn
    case h_2 i x₁ hi =>
      match idx, h with
      | [], h =>
        cases h
        exact .alloc b write [] i x _ (by simp) hi
      | [i0], h =>
        cases h
        exact .alloc b write [i0] i x _ (by simp) hi
      | i0 :: i1 :: l, h =>
        cases h
        exact .alloc3 b write i0 i1 l i x _ hi
  | rUndo b write js =>
    cases js with
    | nil =>
      cases hf
      cases h
      exact .undone b write x
    | cons j js =>
      cases hf
      dsimp only at h
      split at h
      case h_1 hj =>
        cases h
        exact .undo b write j js x _ hj
      case h_2 => cases h
  | wTest r =>
    cases hf
    dsimp only at h
    split at h
    · cases h
      exact .wait r x ‹_›
    · cases h
      exact .done r x ‹_›
  | fChain r i =>
    cases hf
    dsimp only at h
    split at h
    case h_1 hi =>
      cases h
      exact .freeChain r i x _ hi
    case h_2 => cases h
  | iTest =>
    cases hf
    dsimp only at h
    split at h
    · cases h
      exact .more x ‹_›
    · cases h
      exact .noMore x (not_not.mp ‹_›)
  | iRead =>
    cases hf
    dsimp only [intr] at h
    split at h
    · cases h
    · split at h
      case h_1 b hb =>
        cases h
        exact .read b x hb
      case h_2 => cases h
  | dev =>
    cases hf
    cases ch with
    | consume =>
      dsimp only [device] at h
      split at h
      · cases h
        exact .consume x ‹_›
      · cases h
    | complete id =>
      dsimp only [device] at h
      split at h
      · cases h
        exact .complete id x ‹_›
      · cases h
    | _ => cases h
  | fWake r o => cases o <;> cases hf
  | rFormat | rInfo | rRing | rIdx | wDone | rReturn | iOut | iNext =>
    cases hf
    cases h
    constructor
  | _ => cases hf

/-! ## What the positions say -/

/-- The descriptors of a chain from `i` on. -/
def Idx.from (c : Idx) (i : ℕ) : List ℕ := c.list.dropWhile (· != i)

namespace Pc

/-- The descriptors that a caller has. -/
@[simp] def held : Pc → List ℕ
  | .rAlloc _ _ idx => idx
  | .rUndo _ _ js | .rUndoWake _ _ js => js
  | .rFormat _ _ c | .rInfo _ c | .rRing _ c | .rIdx _ c => c.list
  | .wTest r | .wPrepare r | .wUnlock r | .wSleep r | .wAcquire r | .wDone r => r.idx.list
  | .fChain r i | .fWake r (some i) => r.idx.from i
  | _ => []

/-- The buffer of a call. -/
@[simp] def buf : Pc → Option ℕ
  | .rAcquire b _ | .rAlloc b _ _ | .rUndo b _ _ | .rUndoWake b _ _ | .rPrepare b _ | .rUnlock b _
  | .rSleep b _ | .rFormat b _ _ | .rInfo b _ | .rRing b _ | .rIdx b _ => some b
  | .wTest r | .wPrepare r | .wUnlock r | .wSleep r | .wAcquire r | .wDone r | .fChain r _
  | .fWake r _ | .rRelease r | .rReturn r => some r.b
  | _ => none

/-- The request that a caller waits for. -/
@[simp] def waiting : Pc → Option Req
  | .wTest r | .wPrepare r | .wUnlock r | .wSleep r | .wAcquire r => some r
  | _ => none

/-- The positions inside the critical section of `vdisk_lock`. -/
@[simp] def holds : Pc → Bool
  | .out | .rAcquire .. | .rSleep .. | .wSleep _ | .wAcquire _ | .rReturn _ | .iOut | .iAcquire
  | .dev => false
  | _ => true

/-- A handler is in the middle of an entry of the used ring. -/
@[simp] def mid : Pc → Bool
  | .iWake _ | .iNext => true
  | _ => false

end Pc

/-- The descriptors of `l` are chained in this order. -/
def Disk.Linked (x : Disk) : List ℕ → Prop
  | [] => True
  | [i] => (x.desc i).flags &&& VRING_DESC_F_NEXT = 0
  | i :: j :: l =>
    (x.desc i).flags &&& VRING_DESC_F_NEXT ≠ 0 ∧ (x.desc i).next = j ∧ x.Linked (j :: l)

/-- A chain is complete, with the place for the status at its end. -/
def Disk.Formatted (x : Disk) (c : Idx) : Prop :=
  x.Linked c.list ∧ (x.desc c.i2).addr = .status c.i0

/-- What a caller has written where it is. -/
@[simp] def Pc.Here (x : Disk) : Pc → Prop
  | .rAlloc _ _ idx => idx.length ≤ 2
  | .rInfo _ c => x.Formatted c
  | .rRing b c => x.Formatted c ∧ (x.info c.i0).b = some b ∧ (x.buf b).disk = 1
  | .rIdx b c => x.Formatted c ∧ (x.info c.i0).b = some b ∧ (x.buf b).disk = 1 ∧
      x.avail.ring (x.avail.idx.toNat % NUM) = c.i0
  | .wTest r | .wPrepare r | .wUnlock r | .wSleep r | .wAcquire r =>
    x.Formatted r.idx ∧ (x.info r.idx.i0).b = some r.b ∧ x.ticket r.idx.i0 = r.n ∧ r.n < x.nsub
  | .wDone r => x.Formatted r.idx ∧ r.n ∈ x.completed
  | .fChain r i | .fWake r (some i) =>
    r.idx.list.Nodup ∧ i ∈ r.idx.list ∧ x.Linked (r.idx.from i) ∧ r.n ∈ x.completed
  | .fWake r none | .rRelease r | .rReturn r => r.n ∈ x.completed
  | _ => True

/-! ## The invariants -/

/-- Every descriptor is free or has one owner. -/
structure Descs (x : Disk) (pcs : ℕ → Pc) : Prop where
  nodup : ∀ t, (pcs t).held.Nodup
  used : ∀ t, ∀ i ∈ (pcs t).held, i < NUM ∧ x.free i = false
  disj : ∀ t u i, i ∈ (pcs t).held → i ∈ (pcs u).held → t = u
  cover : ∀ i < NUM, x.free i = false → ∃ t, i ∈ (pcs t).held

/-- The callers hold the sleep-locks of their buffers. -/
structure Bufs (x : Disk) (pcs : ℕ → Pc) : Prop where
  locked : ∀ t b, (pcs t).buf = some b → x.locked b = true
  unique : ∀ t u b, (pcs t).buf = some b → (pcs u).buf = some b → t = u

/-- Where the submitted requests are: `A` in the avail ring, `U` in the used ring, of which `k` are
handled already, and the others with the device. -/
structure Rings (x : Disk) (pcs : ℕ → Pc) (A U : List ℕ) (k : ℕ) : Prop where
  avail : Holds NUM x.avail.ring x.dev.idx A
  availIdx : x.avail.idx = x.dev.idx + BitVec.ofNat 16 A.length
  used : Holds NUM x.used.ring x.usedIdx U
  usedIdx : x.used.idx = x.usedIdx + BitVec.ofNat 16 U.length
  nodup : (A ++ x.dev.pending ++ U).Nodup
  owner : ∀ id ∈ A ++ x.dev.pending ++ U, ∃ t r, (pcs t).waiting = some r ∧ r.idx.i0 = id
  status : ∀ id ∈ U, (x.info id).status = 0 ∧ x.ticket id ∈ x.completed
  flag : ∀ t r, (pcs t).waiting = some r →
    ((x.buf r.b).disk = 1 ∧ r.idx.i0 ∈ A ++ x.dev.pending ++ U.drop k) ∨
    ((x.buf r.b).disk = 0 ∧ r.n ∈ x.completed ∧ r.idx.i0 ∉ A ++ x.dev.pending ++ U.drop k)
  mid : k ≤ U.length ∧ ((k = 0 ∧ ∀ t, (pcs t).mid = false) ∨ (k = 1 ∧ ∃ t, (pcs t).mid = true))
  reading : ∀ t, pcs t = .iRead → U ≠ []

/-- The invariant of the driver and the device. -/
structure Inv (x : Disk) (pcs : ℕ → Pc) : Prop where
  descs : Descs x pcs
  bufs : Bufs x pcs
  here : ∀ t, (pcs t).Here x
  fresh : ∀ m ∈ x.completed, m < x.nsub
  rings : ∃ A U k, Rings x pcs A U k

/-! ## Descriptors -/

namespace Descs

variable {x x' : Disk} {pcs : ℕ → Pc} {t : ℕ} {l l' : Pc}

/-- A move that keeps the descriptors. -/
lemma keep (h : Descs x pcs) (hpc : pcs t = l) (hheld : l'.held = l.held)
    (hfree : x'.free = x.free) : Descs x' (update pcs t l') := by
  subst hpc
  have heq : ∀ u, (update pcs t l' u).held = (pcs u).held := proj_update Pc.held hheld
  constructor
  · intro u
    rw [heq]
    exact h.nodup u
  · intro u
    rw [heq, hfree]
    exact h.used u
  · intro u v i
    rw [heq, heq]
    exact h.disj u v i
  · intro i hi
    rw [hfree]
    intro hf
    obtain ⟨u, hu⟩ := h.cover i hi hf
    exact ⟨u, by rw [heq]; exact hu⟩

/-- A descriptor that was free is allocated. -/
lemma alloc (h : Descs x pcs) {i : ℕ} (hi : i < NUM) (hf : x.free i = true)
    (hheld : l'.held = (pcs t).held ++ [i])
    (hfree : x'.free = update x.free i false) :
    Descs x' (update pcs t l') := by
  have hnot : ∀ u, i ∉ (pcs u).held := fun u hu => by
    rw [(h.used u i hu).2] at hf
    exact absurd hf (by simp)
  have hmem : ∀ u j, j ∈ (update pcs t l' u).held →
      j ∈ (pcs u).held ∨ (u = t ∧ j = i) := by
    intro u j hj
    by_cases hu : u = t
    · subst hu
      rw [update_self, hheld, List.mem_append, List.mem_singleton] at hj
      exact hj.imp_right fun hj => ⟨rfl, hj⟩
    · rw [update_of_ne hu] at hj
      exact Or.inl hj
  constructor
  · refine (forall_update_iff pcs fun _ l => l.held.Nodup).mpr ⟨?_, fun u _ => h.nodup u⟩
    rw [hheld, List.nodup_append]
    refine ⟨h.nodup t, List.nodup_singleton i, fun a ha b hb => ?_⟩
    rw [List.mem_singleton] at hb
    rintro rfl
    exact hnot t (hb ▸ ha)
  · intro u j hj
    rw [hfree]
    rcases hmem u j hj with hj | ⟨-, rfl⟩
    · have hne : j ≠ i := fun he => hnot u (he ▸ hj)
      rw [update_of_ne hne]
      exact h.used u j hj
    · exact ⟨hi, update_self ..⟩
  · intro u v j hu hv
    rcases hmem u j hu with hu' | ⟨hut, hji⟩
    · rcases hmem v j hv with hv' | ⟨-, hji⟩
      · exact h.disj u v j hu' hv'
      · exact absurd (hji ▸ hu') (hnot u)
    · rcases hmem v j hv with hv' | ⟨hvt, -⟩
      · exact absurd (hji ▸ hv') (hnot v)
      · exact hut.trans hvt.symm
  · intro j hj hfj
    rw [hfree] at hfj
    by_cases hji : j = i
    · refine ⟨t, ?_⟩
      rw [update_self, hheld, hji]
      simp
    · rw [update_of_ne hji] at hfj
      obtain ⟨u, hu⟩ := h.cover j hj hfj
      refine ⟨u, ?_⟩
      by_cases hut : u = t
      · subst hut
        rw [update_self, hheld]
        exact List.mem_append_left _ hu
      · rwa [update_of_ne hut]

/-- The first of its descriptors is freed. -/
lemma free (h : Descs x pcs) {i : ℕ} (hheld : (pcs t).held = i :: l'.held)
    (hfree : x'.free = update x.free i true) :
    Descs x' (update pcs t l') := by
  have hnodup := h.nodup t
  rw [hheld, List.nodup_cons] at hnodup
  have hsub : ∀ u j, j ∈ (update pcs t l' u).held → j ∈ (pcs u).held ∧ j ≠ i := by
    intro u j hj
    by_cases hu : u = t
    · subst hu
      rw [update_self] at hj
      refine ⟨by rw [hheld]; exact List.mem_cons_of_mem _ hj, ?_⟩
      rintro rfl
      exact hnodup.1 hj
    · rw [update_of_ne hu] at hj
      refine ⟨hj, ?_⟩
      rintro rfl
      exact hu (h.disj u t j hj (by rw [hheld]; exact List.mem_cons_self))
  constructor
  · exact (forall_update_iff pcs fun _ l => l.held.Nodup).mpr ⟨hnodup.2, fun u _ => h.nodup u⟩
  · intro u j hj
    obtain ⟨hj, hne⟩ := hsub u j hj
    rw [hfree, update_of_ne hne]
    exact h.used u j hj
  · intro u v j hu hv
    exact h.disj u v j (hsub u j hu).1 (hsub v j hv).1
  · intro j hj hfj
    rw [hfree] at hfj
    have hji : j ≠ i := by
      rintro rfl
      rw [update_self] at hfj
      exact absurd hfj (by simp)
    rw [update_of_ne hji] at hfj
    obtain ⟨u, hu⟩ := h.cover j hj hfj
    refine ⟨u, ?_⟩
    by_cases hut : u = t
    · subst hut
      rw [update_self]
      rw [hheld, List.mem_cons] at hu
      exact hu.resolve_left hji
    · rwa [update_of_ne hut]

end Descs

/-! ## Buffers -/

namespace Bufs

variable {x x' : Disk} {pcs : ℕ → Pc} {t : ℕ} {l l' : Pc}

lemma keep (h : Bufs x pcs) (hpc : pcs t = l) (hbuf : l'.buf = l.buf)
    (hlocked : x'.locked = x.locked) : Bufs x' (update pcs t l') := by
  subst hpc
  have heq : ∀ u, (update pcs t l' u).buf = (pcs u).buf := proj_update Pc.buf hbuf
  refine ⟨fun u b => ?_, fun u v b => ?_⟩
  · rw [heq, hlocked]
    exact h.locked u b
  · rw [heq, heq]
    exact h.unique u v b

/-- A call for a buffer whose lock was free. -/
lemma call (h : Bufs x pcs) {b : ℕ} (hb : x.locked b = false) (hbuf : l'.buf = some b)
    (hlocked : x'.locked = update x.locked b true) :
    Bufs x' (update pcs t l') := by
  have hnot : ∀ u, (pcs u).buf ≠ some b := fun u hu => by
    rw [h.locked u b hu] at hb
    exact absurd hb (by simp)
  have hcases : ∀ u b', (update pcs t l' u).buf = some b' →
      (u = t ∧ b' = b) ∨ (u ≠ t ∧ (pcs u).buf = some b') := by
    intro u b' hu
    by_cases hut : u = t
    · rw [hut, update_self, hbuf] at hu
      exact Or.inl ⟨hut, (Option.some.inj hu).symm⟩
    · rw [update_of_ne hut] at hu
      exact Or.inr ⟨hut, hu⟩
  refine ⟨fun u b' hu => ?_, fun u v b' hu hv => ?_⟩
  · rw [hlocked]
    rcases hcases u b' hu with ⟨-, rfl⟩ | ⟨-, hu⟩
    · exact update_self ..
    · have hne : b' ≠ b := fun he => hnot u (he ▸ hu)
      rw [update_of_ne hne]
      exact h.locked u b' hu
  · rcases hcases u b' hu with ⟨hut, hb'⟩ | ⟨-, hu'⟩
    · rcases hcases v b' hv with ⟨hvt, -⟩ | ⟨-, hv'⟩
      · exact hut.trans hvt.symm
      · exact absurd (hb' ▸ hv') (hnot v)
    · rcases hcases v b' hv with ⟨-, hb'⟩ | ⟨-, hv'⟩
      · exact absurd (hb' ▸ hu') (hnot u)
      · exact h.unique u v b' hu' hv'

/-- The lock of the buffer is released after the call. -/
lemma ret (h : Bufs x pcs) {b : ℕ} (ht : (pcs t).buf = some b) (hbuf : l'.buf = none)
    (hlocked : x'.locked = update x.locked b false) :
    Bufs x' (update pcs t l') := by
  have hold : ∀ u b', (update pcs t l' u).buf = some b' → u ≠ t ∧ (pcs u).buf = some b' := by
    intro u b' hu
    have hut : u ≠ t := by
      rintro rfl
      rw [update_self, hbuf] at hu
      exact absurd hu (by simp)
    rw [update_of_ne hut] at hu
    exact ⟨hut, hu⟩
  refine ⟨fun u b' hu => ?_, fun u v b' hu hv => ?_⟩
  · obtain ⟨hut, hu⟩ := hold u b' hu
    have hne : b' ≠ b := by
      rintro rfl
      exact hut (h.unique u t b' hu ht)
    rw [hlocked, update_of_ne hne]
    exact h.locked u b' hu
  · exact h.unique u v b' (hold u b' hu).2 (hold v b' hv).2

end Bufs

/-! ## What the callers have written -/

lemma Disk.Linked.congr {x x' : Disk} : ∀ {l : List ℕ}, x.Linked l →
    (∀ i ∈ l, x'.desc i = x.desc i) → x'.Linked l
  | [], _, _ => trivial
  | [i], h, heq => by
    rw [Disk.Linked, heq i (by simp)]
    exact h
  | i :: j :: l, h, heq => by
    rw [Disk.Linked, heq i (by simp)]
    exact ⟨h.1, h.2.1, h.2.2.congr fun k hk => heq k (List.mem_cons_of_mem _ hk)⟩

lemma Disk.Formatted.congr {x x' : Disk} {c : Idx} (h : x.Formatted c)
    (heq : ∀ i ∈ c.list, x'.desc i = x.desc i) : x'.Formatted c :=
  ⟨h.1.congr heq, by rw [heq c.i2 (by simp)]; exact h.2⟩

/-- What a caller has written stands as long as nobody else writes to its descriptors, and, while it
holds the lock, to its buffer and the avail ring. -/
lemma Pc.Here.congr {x x' : Disk} {l : Pc} (h : l.Here x)
    (hdesc : ∀ i ∈ l.held, x'.desc i = x.desc i)
    (hinfo : ∀ i ∈ l.held, (x'.info i).b = (x.info i).b)
    (hticket : ∀ i ∈ l.held, x'.ticket i = x.ticket i)
    (hcompleted : ∀ n ∈ x.completed, n ∈ x'.completed) (hnsub : x.nsub ≤ x'.nsub)
    (hlock : l.holds = true → x'.buf = x.buf ∧ x'.avail = x.avail) : l.Here x' := by
  cases l with
  | rAlloc b write idx => exact h
  | rInfo b c => exact Disk.Formatted.congr h hdesc
  | rRing b c =>
    obtain ⟨hbuf, -⟩ := hlock rfl
    refine ⟨h.1.congr hdesc, (hinfo c.i0 (by simp)).trans h.2.1, ?_⟩
    rw [hbuf]
    exact h.2.2
  | rIdx b c =>
    obtain ⟨hbuf, havail⟩ := hlock rfl
    refine ⟨h.1.congr hdesc, (hinfo c.i0 (by simp)).trans h.2.1, ?_⟩
    rw [hbuf, havail]
    exact h.2.2
  | wTest r | wPrepare r | wUnlock r | wSleep r | wAcquire r =>
    exact ⟨h.1.congr hdesc, (hinfo r.idx.i0 (by simp)).trans h.2.1,
      (hticket r.idx.i0 (by simp)).trans h.2.2.1, by have := h.2.2.2; omega⟩
  | wDone r => exact ⟨h.1.congr hdesc, hcompleted _ h.2⟩
  | fChain r i => exact ⟨h.1, h.2.1, h.2.2.1.congr hdesc, hcompleted _ h.2.2.2⟩
  | fWake r o =>
    cases o with
    | some i => exact ⟨h.1, h.2.1, h.2.2.1.congr hdesc, hcompleted _ h.2.2.2⟩
    | none => exact hcompleted _ h
  | rRelease r | rReturn r => exact hcompleted _ h
  | _ => trivial

end Virtio

end Xv6
