import Xv6.Fs.Trans

/-!
# The invariant of the file system

`FsOk` holds whenever no function is in the middle of changing an inode: the blocks are allocated as
the inodes say, no inode has a hole, and the valid entries of the inode table are copies of the inodes
on disk.  It is kept by `writei` and `itrunc`, which change one inode.
-/

namespace Xv6

open Function

/-- The inode table. -/
structure TableOk (s : Fs) : Prop where
  ref : ∀ k, 0 ≤ (s.inode k).ref
  range : ∀ k, 0 < (s.inode k).ref → k < NINODE
  inum : ∀ k, 0 < (s.inode k).ref → (s.inode k).inum < s.sb.ninodes
  unique : ∀ k k', 0 < (s.inode k).ref → 0 < (s.inode k').ref →
    (s.inode k).inum = (s.inode k').inum → k = k'
  type : ∀ k, 0 < (s.inode k).ref → (s.inode k).valid = true → (s.inode k).type ≠ 0
  copy : ∀ k, 0 < (s.inode k).ref → (s.inode k).valid = true →
    s.img.dino (s.inode k).inum = (s.inode k).toDinode

/-- The file system, when no inode is being changed. -/
structure FsOk (s : Fs) : Prop where
  sb : s.sb.Ok
  alloc : Alloc s.sb s.img.slot s.img.bit
  noHole : ∀ i, (s.img.dino i).type ≠ 0 → s.img.NoHole i
  table : TableOk s

/-- An inode that is referenced and has been read from disk. -/
structure Fs.Valid (s : Fs) (k : ℕ) : Prop where
  ref : 0 < (s.inode k).ref
  valid : (s.inode k).valid = true

instance (s : Fs) (k : ℕ) : Decidable (s.Valid k) :=
  decidable_of_iff (0 < (s.inode k).ref ∧ (s.inode k).valid = true)
    ⟨fun h => ⟨h.1, h.2⟩, fun h => ⟨h.1, h.2⟩⟩

variable {s s' : Fs} {k : ℕ} {B : List ℕ}

lemma Fs.work_eq_img
    (h : s.img.dino (s.inode k).inum = (s.inode k).toDinode) : s.work k = s.img := by
  rw [work, ← h, Img.setDino, update_eq_self]

namespace FsOk

variable {s : Fs} {k : ℕ}

lemma work_eq (h : FsOk s) (hk : s.Valid k) : s.work k = s.img :=
  Fs.work_eq_img (h.table.copy k hk.ref hk.valid)

lemma working (h : FsOk s) (hk : s.Valid k) : Working s k where
  sb := h.sb
  inum := h.table.inum k hk.ref
  type := h.table.type k hk.ref hk.valid
  alloc := by
    rw [h.work_eq hk]
    exact h.alloc

lemma noHole_inode (h : FsOk s) (hk : s.Valid k) : s.NoHole k := by
  rw [Fs.NoHole, h.work_eq hk]
  refine h.noHole _ ?_
  rw [h.table.copy k hk.ref hk.valid]
  exact h.table.type k hk.ref hk.valid

end FsOk

/-- What the invariant is about. -/
structure Fs.Same (s s' : Fs) : Prop where
  img : s'.img = s.img
  inode : s'.inode = s.inode
  sb : s'.sb = s.sb

lemma FsOk.same (h : FsOk s) (hs : s.Same s') : FsOk s' := by
  obtain ⟨hsb, halloc, hno, ⟨h₁, h₂, h₃, h₄, h₅, h₆⟩⟩ := h
  refine ⟨?_, ?_, ?_, ⟨?_, ?_, ?_, ?_, ?_, ?_⟩⟩ <;> simp only [hs.img, hs.inode, hs.sb] <;> assumption

lemma Fs.Valid.same (h : s.Valid k) (hs : s.Same s') : s'.Valid k := by
  obtain ⟨h₁, h₂⟩ := h
  exact ⟨by rwa [hs.inode], by rwa [hs.inode]⟩

/-- The entries of the table besides the copy of inode `k`. -/
lemma Works.inode_fields (h : Works s s' k B) (j : ℕ) :
    (s'.inode j).ref = (s.inode j).ref ∧ (s'.inode j).inum = (s.inode j).inum ∧
      (s'.inode j).valid = (s.inode j).valid ∧ (s'.inode j).locked = (s.inode j).locked := by
  by_cases hj : j = k
  · rw [hj, h.self]
    exact ⟨rfl, rfl, rfl, rfl⟩
  · rw [h.others j hj]
    exact ⟨rfl, rfl, rfl, rfl⟩

/-- Code that has worked on inode `k` and stored it keeps the table. -/
lemma TableOk.works (h : TableOk s) (hk : s.Valid k)
    (hw : Works s s' k B) (htype : (s'.inode k).type ≠ 0)
    (hcopy : s'.img.dino (s.inode k).inum = (s'.inode k).toDinode)
    (hother : ∀ i ≠ (s.inode k).inum, s'.img.dino i = s.img.dino i) : TableOk s' where
  ref j := by
    rw [(hw.inode_fields j).1]
    exact h.ref j
  range j hj := by
    rw [(hw.inode_fields j).1] at hj
    exact h.range j hj
  inum j hj := by
    rw [(hw.inode_fields j).1] at hj
    rw [(hw.inode_fields j).2.1, hw.sb]
    exact h.inum j hj
  unique j j' hj hj' heq := by
    rw [(hw.inode_fields j).1] at hj
    rw [(hw.inode_fields j').1] at hj'
    rw [(hw.inode_fields j).2.1, (hw.inode_fields j').2.1] at heq
    exact h.unique j j' hj hj' heq
  type j hj hv := by
    by_cases hjk : j = k
    · rw [hjk]
      exact htype
    · rw [hw.others j hjk] at hj hv ⊢
      exact h.type j hj hv
  copy j hj hv := by
    by_cases hjk : j = k
    · rw [hjk, (hw.inode_fields k).2.1]
      exact hcopy
    · rw [hw.others j hjk] at hj hv ⊢
      rw [hother, h.copy j hj hv]
      exact fun heq => hjk (h.unique j k hj hk.ref heq)

section Ops

variable {s s' : Fs} {k : ℕ} {B : List ℕ}

/-- `writei` keeps the invariant. -/
lemma FsOk.written {src : Buffer} {off n r t : ℕ} (h : FsOk s) (hk : s.Valid k)
    (hw : Written s s' k src off n r t B) : FsOk s' := by
  have hwork := h.work_eq hk
  have htype : ∀ i, (s'.img.dino i).type = (s.img.dino i).type := fun i => by
    by_cases hi : i = (s.inode k).inum
    · have hd := work_dino_self (s := s') (k := k)
      rw [← hw.img, hw.inum] at hd
      rw [hi, hd, hw.copy, h.table.copy k hk.ref hk.valid]
    · rw [hw.dino i hi, hwork]
  refine ⟨hw.sb ▸ h.sb, hw.sb ▸ hw.alloc, fun i hi => ?_, h.table.works hk hw.toWorks ?_ ?_ ?_⟩
  · by_cases hik : i = (s.inode k).inum
    · have := hw.noHole
      rwa [Fs.NoHole, ← hw.img, hw.inum, ← hik] at this
    · rw [htype] at hi
      have hno := h.noHole i hi
      refine ⟨?_, fun bn hbn => ?_⟩
      · rw [hw.dino i hik, hwork]
        exact hno.size
      · rw [hw.dino i hik, hwork] at hbn
        rw [hw.slot_other i _ hik, hwork]
        exact hno.slot bn hbn
  · rw [hw.copy]
    exact h.table.type k hk.ref hk.valid
  · rw [hw.img, ← hw.inum, work_dino_self]
  · intro i hi
    rw [hw.dino i hi, hwork]

/-- After `itrunc` the inode has no blocks. -/
lemma Truncated.slot (h : Truncated s k s') (j m : ℕ) :
    s'.img.slot j m = if j = (s.inode k).inum then 0 else (s.work k).slot j m := by
  split
  · next hj =>
    have haddr : ∀ n, (s'.img.dino j).addr n = 0 := fun n => by
      rw [hj, h.dino, update_self, h.copy]
      unfold Dinode.addr
      split <;> rfl
    unfold Img.slot
    split_ifs with h₁ h₂ h₃
    · rfl
    · exact haddr m
    · exact absurd (haddr _) h₃.2
    · rfl
  · next hj =>
    refine Img.slot_congr ?_ fun _ o _ => ?_
    · rw [h.dino, update_of_ne hj, work_dino_of_ne hj]
    · rw [h.data, work_data]

/-- `itrunc` keeps the invariant. -/
lemma FsOk.truncated (h : FsOk s) (hk : s.Valid k) (ht : Truncated s k s') : FsOk s' := by
  have hwork := h.work_eq hk
  have hinum := ht.inum
  have hother : ∀ i ≠ (s.inode k).inum, s'.img.dino i = s.img.dino i := fun i hi => by
    rw [ht.dino, update_of_ne hi]
  have hself : s'.img.dino (s.inode k).inum = (s'.inode k).toDinode := by
    rw [ht.dino, update_self]
  refine ⟨ht.sb ▸ h.sb, ?_, fun i hi => ?_, h.table.works hk ht.toWorks ?_ hself hother⟩
  · rw [ht.sb]
    refine ht.alloc.congr fun j m => ?_
    rw [ht.slot, dropSlots]
    by_cases hj : j = (s.inode k).inum
    · rw [if_pos hj]
      by_cases hm : m < NSLOT
      · rw [if_pos ⟨hj, hm⟩]
      · rw [if_neg (fun hjm => hm hjm.2), Img.slot_of_ge (by omega)]
    · rw [if_neg hj, if_neg (fun hjm => hj hjm.1)]
  · by_cases hik : i = (s.inode k).inum
    · have hsize : (s'.img.dino i).size.toNat = 0 := by
        rw [hik, hself, ht.copy]
        rfl
      exact ⟨by omega, fun bn hbn => absurd hbn (by omega)⟩
    · rw [hother i hik] at hi
      have hno := h.noHole i hi
      refine ⟨by rw [hother i hik]; exact hno.size, fun bn hbn => ?_⟩
      rw [hother i hik] at hbn
      rw [ht.slot, if_neg hik, hwork]
      exact hno.slot bn hbn
  · rw [ht.copy]
    exact h.table.type k hk.ref hk.valid

end Ops

/-! ## A file system with an empty root directory -/

def rootSb : Superblock where
  magic := FSMAGIC
  size := 72
  nblocks := 37
  ninodes := 16
  nlog := 31
  logstart := 2
  inodestart := 33
  bmapstart := 34

/-- The inode of the root directory. -/
def rootDino : Dinode where
  type := T_DIR
  nlink := 1
  size := 32
  addrs := fun n => if n = 0 then 35 else 0

/-- A name in a directory entry. -/
def nameOf (l : List ℕ) : Bytes := cbytes (l.map (BitVec.ofNat 8))

/-- The blocks of the disk. -/
def rootDisk : Disk := fun b =>
  if b = 33 then rootDino.write (fun _ => 0) (inodeOffset ROOTINO)
  else if b = 34 then fun i => if i < 4 then 0xff else if i = 4 then 0x0f else 0
  else if b = 35 then
    (Bytes.blit (fun _ => 0) 0 (dirent ROOTINO (nameOf [46])) 0 DIRENT).blit DIRENT
      (dirent ROOTINO (nameOf [46, 46])) 0 DIRENT
  else fun _ => 0

/-- The file system with the root directory in entry 0 of the inode table. -/
def rootFs : Fs where
  log := LogState.boot 2 rootDisk
  sb := rootSb
  inode k := if k = 0 then { rootDino with inum := ROOTINO, ref := 1, valid := true } else {}

lemma rootSb_ok : rootSb.Ok where
  log := by decide
  inodes := by decide
  map := by decide
  bitmap := by decide
  size := by decide
  ninodes := by decide
  root := by decide

lemma rootFs_dino (i : ℕ) : rootFs.img.dino i = if i = ROOTINO then rootDino else {} := by
  by_cases hi : i < 16
  · have hblock : rootSb.iblock i = 33 := by
      unfold Superblock.iblock
      have hipb : IPB = 16 := rfl
      rw [hipb, Nat.div_eq_of_lt hi]
      rfl
    have hread : rootFs.img.dino i = Dinode.read (rootDisk 33) (inodeOffset i) := by
      rw [Fs.img, imgOf_dino hi]
      exact congrArg (fun b => Dinode.read (rootDisk b) (inodeOffset i)) hblock
    have hdisk : rootDisk 33 = rootDino.write (fun _ => 0) (inodeOffset ROOTINO) := if_pos rfl
    rw [hread, hdisk]
    by_cases h1 : i = ROOTINO
    · rw [h1, if_pos rfl, Dinode.read_write]
    · rw [if_neg h1, Dinode.read_write_of_disjoint, Dinode.read_zero]
      exact inodeOffset_disjoint (Ne.symm h1) (show rootSb.iblock _ = rootSb.iblock _ from hblock.symm)
  · have h1 : i ≠ ROOTINO := by
      rintro rfl
      exact hi (by decide)
    rw [if_neg h1]
    exact if_neg hi

lemma rootFs_slot (i n : ℕ) : rootFs.img.slot i n = if i = ROOTINO ∧ n = 0 then 35 else 0 := by
  by_cases hi : i = ROOTINO
  · have hd : rootFs.img.dino i = rootDino := by rw [rootFs_dino, if_pos hi]
    have ht : (rootFs.img.dino i).type ≠ 0 := by
      rw [hd]
      decide
    have haddr : ∀ n ≤ NDIRECT, rootFs.img.slot i n = if n = 0 then 35 else 0 := fun n hn => by
      rw [Img.slot_direct ht hn, hd]
      have hn' : n < 13 := Nat.lt_succ_of_le hn
      clear hn
      revert n
      decide
    simp only [hi, true_and] at haddr ⊢
    by_cases hn : n ≤ NDIRECT
    · exact haddr n hn
    · rw [Img.slot_indirect_zero (by omega) (haddr NDIRECT le_rfl), if_neg (by omega)]
  · rw [if_neg (fun h => hi h.1), Img.slot_of_free]
    rw [rootFs_dino, if_neg hi]

lemma rootFs_bit (b : ℕ) : rootFs.img.bit b = decide (b < 36) := by
  by_cases hb : b < 72
  · revert b
    decide +kernel
  · have hb' : ¬b < 36 := by omega
    have hsize : rootFs.sb.size = 72 := rfl
    simp only [Fs.img, imgOf, hsize, hb, hb', decide_false, Bool.false_and]

lemma rootFs_ok : FsOk rootFs where
  sb := rootSb_ok
  alloc := by
    have hstart : rootFs.sb.datastart = 35 := rfl
    have hsize : rootFs.sb.size = 72 := rfl
    refine ⟨fun i n h => ?_, fun i n i' n' heq h => ?_, fun b hb hlt => ?_, by decide, fun b hb => ?_⟩
    all_goals simp only [rootFs_slot, rootFs_bit, hstart, hsize] at *
    · split at h
      · rw [if_pos ‹_›]
        omega
      · exact absurd rfl h
    · split at h
      · next hin =>
        rw [if_pos hin] at heq
        split at heq
        · next hin' => exact ⟨hin.1.trans hin'.1.symm, hin.2.trans hin'.2.symm⟩
        · exact absurd heq (by decide)
      · exact absurd rfl h
    · rw [decide_eq_true_eq]
      constructor
      · intro h
        exact ⟨ROOTINO, 0, by rw [if_pos ⟨rfl, rfl⟩]; omega⟩
      · rintro ⟨i, n, h⟩
        split at h <;> omega
    · exact decide_eq_true (by omega)
  noHole i hi := by
    have hi' : i = ROOTINO := by
      by_contra h
      rw [rootFs_dino, if_neg h] at hi
      exact hi rfl
    have hd : (rootFs.img.dino i).size.toNat = 32 := by
      rw [rootFs_dino, if_pos hi']
      rfl
    refine ⟨by rw [hd]; decide, fun bn hbn => ?_⟩
    have hbs : BSIZE = 1024 := rfl
    have hbn0 : bn = 0 := by
      rw [hd, hbs] at hbn
      omega
    rw [rootFs_slot, if_pos ⟨hi', by rw [hbn0]; rfl⟩]
    decide
  table := by
    have href : ∀ k, 0 < (rootFs.inode k).ref → k = 0 := fun k hk => by
      by_contra h
      have hk' : rootFs.inode k = {} := if_neg h
      rw [hk'] at hk
      exact absurd hk (by decide)
    refine ⟨fun k => ?_, fun k hk => ?_, fun k hk => ?_, fun k k' hk hk' _ => ?_, fun k hk _ => ?_,
      fun k hk _ => ?_⟩
    · by_cases h : k = 0
      · rw [h]
        decide
      · rw [show rootFs.inode k = {} from if_neg h]
    · rw [href k hk]
      decide
    · rw [href k hk]
      decide
    · rw [href k hk, href k' hk']
    · rw [href k hk]
      decide
    · rw [href k hk]
      exact (rootFs_dino ROOTINO).trans (if_pos rfl)

lemma rootFs_idle : Idle rootFs where
  sb := rootSb_ok
  start := rfl
  committing := rfl
  ready := by
    refine ⟨?_, fun b _ => rfl, by decide, by decide, ?_, ?_⟩
    · decide
    · exact fun b hb => absurd hb List.not_mem_nil
    · exact fun b hb => absurd hb List.not_mem_nil
  synced _ _ := rfl
  outstanding := rfl
  lh := rfl

end Xv6
