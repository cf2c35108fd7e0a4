import Xv6.Fs.Content

/-!
# Room for a block

When `bmap` cannot add a block: a data block may be needed, and an indirect block besides, and there
are fewer free blocks than that.  A write inside one block fails exactly then.
-/

namespace Xv6

/-- The free blocks. -/
def Fs.freeSet (s : Fs) : Finset ℕ := (Finset.range s.sb.size).filter fun c => s.img.bit c = false

/-- The number of free blocks. -/
def Fs.freeBlocks (s : Fs) : ℕ := s.freeSet.card

/-- How many blocks inode `k` needs for its block `bn`. -/
def Fs.blocksNeeded (s : Fs) (k bn : ℕ) : ℕ :=
  if (s.work k).slot (s.inode k).inum (fileSlot bn) ≠ 0 then 0
  else if bn < NDIRECT ∨ (s.work k).slot (s.inode k).inum NDIRECT ≠ 0 then 1
  else 2

/-- Block `bn` of inode `k` is not there and cannot be allocated. -/
def Fs.NoBlock (s : Fs) (k bn : ℕ) : Prop := s.freeBlocks < s.blocksNeeded k bn

instance (s : Fs) (k bn : ℕ) : Decidable (s.NoBlock k bn) := inferInstanceAs (Decidable (_ < _))

section Free

variable {s s' : Fs} {b : ℕ}

lemma mem_freeSet : b ∈ s.freeSet ↔ b < s.sb.size ∧ s.img.bit b = false := by
  rw [Fs.freeSet, Finset.mem_filter, Finset.mem_range]

lemma freeSet_eq_empty_iff : s.freeSet = ∅ ↔ ∀ c < s.sb.size, s.img.bit c = true := by
  rw [Finset.eq_empty_iff_forall_notMem]
  refine forall_congr' fun c => ?_
  rw [mem_freeSet, not_and, Bool.not_eq_false]

/-- `balloc` takes one of the free blocks if there is one. -/
lemma Balloc.free (h : Balloc s b s') : if b = 0 then s.freeSet = ∅ ∧ s' = s else
    b ∈ s.freeSet ∧ s'.freeSet = s.freeSet.erase b := by
  rcases h with ⟨rfl, rfl, hfull⟩ | ⟨hb0, hlt, hfree, hw⟩
  · rw [if_pos rfl]
    exact ⟨freeSet_eq_empty_iff.mpr hfull, rfl⟩
  · rw [if_neg hb0]
    refine ⟨mem_freeSet.mpr ⟨hlt, hfree⟩, ?_⟩
    ext c
    rw [Finset.mem_erase, mem_freeSet, mem_freeSet, hw.sb, hw.img]
    by_cases hc : c = b
    · subst hc
      have hbit : (s.img.fresh c).bit c = true := Img.setBit_self
      simp [hbit]
    · have hbit : (s.img.fresh b).bit c = s.img.bit c := Img.setBit_of_ne hc
      simp [hbit, hc]

end Free

section Map

variable {s : Fs} {k n bn : ℕ} (hw : Working s k) (htrans : 1 ≤ s.log.outstanding)

include hw htrans

/-- `ip->addrs[n]`, and what it takes of the free blocks. -/
lemma bmapAddr_room (hn : n ≤ NDIRECT) : wp (bmapAddr k n) (fun a s' =>
    if (s.work k).slot (s.inode k).inum n ≠ 0 then a ≠ 0 ∧ s' = s
    else if a = 0 then s.freeSet = ∅
    else a ∈ s.freeSet ∧ s'.freeSet = s.freeSet.erase a) (fun _ => True) s := by
  rw [hw.slot_addr hn]
  unfold bmapAddr
  simp only [wp_bind, wp_get]
  by_cases h0 : (s.inode k).addr n = 0
  · simp only [h0, ne_eq, not_true_eq_false, if_false, wp_bind]
    refine (balloc_spec hw.sb htrans hw.alloc.head).mono ?_ fun _ _ => trivial
    intro b s₁ hb
    have hfree := hb.free
    by_cases hb0 : b = 0
    · rw [if_pos hb0] at hfree
      rw [wp_ite_pos hb0, wp_pure, if_pos rfl]
      exact hfree.1
    · rw [if_neg hb0] at hfree
      rw [wp_ite_neg hb0, wp_bind, setAddr, wp_setInode, wp_pure, if_neg hb0]
      exact hfree
  · rw [wp_ite_pos h0]
    simp only [ne_eq, h0, not_false_eq_true, if_true]
    exact ⟨h0, rfl⟩

omit htrans in
/-- A slot stays empty unless the block that has been taken goes there. -/
lemma Mapped.slot_eq_zero {s' : Fs} {a m : ℕ} {B : List ℕ} (h : Mapped s k n a s' B)
    (hfree : s'.freeSet = s.freeSet.erase a)
    (h0 : (s.work k).slot (s.inode k).inum m = 0) (hm : m ≠ n) :
    (s'.work k).slot (s.inode k).inum m = 0 := by
  by_contra hne
  obtain ⟨hle, hlt⟩ := h.grew.alloc.range _ _ hne
  -- a block that the inode has got was free
  have hwas : s.img.bit ((s'.work k).slot (s.inode k).inum m) = false := by
    rw [← Bool.not_eq_true]
    intro hset
    obtain ⟨j, m', hjm⟩ := (hw.alloc.owned _ hle hlt).mp hset
    have hkeep := h.grew.slot j m' (hjm ▸ hne)
    obtain ⟨rfl, rfl⟩ := h.grew.alloc.inj j m' (s.inode k).inum m (hkeep.trans hjm)
      (by rw [hkeep, hjm]; exact hne)
    exact hne (hjm.symm.trans h0)
  have hnow : (s'.work k).slot (s.inode k).inum m ∉ s'.freeSet := fun hc => by
    have hbit : s'.img.bit _ = true := (h.grew.alloc.owned _ hle hlt).mpr ⟨_, _, rfl⟩
    rw [(mem_freeSet.mp hc).2] at hbit
    exact absurd hbit (by decide)
  rw [hfree, Finset.mem_erase, not_and_or, not_not] at hnow
  have ha := hnow.resolve_right (not_not.mpr (mem_freeSet.mpr ⟨hlt, hwas⟩))
  exact hm (h.grew.alloc.inj _ _ _ _ (ha.trans h.slot.symm) hne).2

/-- **`bmap`** fails exactly if there are not enough free blocks. -/
lemma bmap_room (hmax : bn < MAXFILE) :
    wp (bmap k bn) (fun a _ => a = 0 ↔ s.NoBlock k bn) (fun _ => True) s := by
  by_cases hslot : (s.work k).slot (s.inode k).inum (fileSlot bn) ≠ 0
  · refine (bmap_of_slot hw hmax hslot).imp ?_
    rintro a - ⟨rfl, -⟩
    rw [Fs.NoBlock, Fs.blocksNeeded, if_pos hslot]
    exact iff_of_false hslot (by omega)
  unfold Fs.NoBlock Fs.blocksNeeded
  rw [if_neg hslot]
  rw [not_not] at hslot
  unfold bmap
  by_cases hd : bn < NDIRECT
  · have hfs : fileSlot bn = bn := if_pos hd
    rw [hfs] at hslot
    rw [wp_ite_pos hd, if_pos (Or.inl hd)]
    refine (bmapAddr_room hw htrans hd.le).imp fun a s' ha => ?_
    rw [if_neg (not_not.mpr hslot)] at ha
    rw [Fs.freeBlocks, Nat.lt_one_iff, Finset.card_eq_zero]
    by_cases ha0 : a = 0
    · rw [if_pos ha0] at ha
      exact iff_of_true ha0 ha
    · rw [if_neg ha0] at ha
      exact iff_of_false ha0 (Finset.ne_empty_of_mem ha.1)
  have hfs : fileSlot bn = bn + 1 := if_neg hd
  have hlt : bn - NDIRECT < NINDIRECT := by
    have : MAXFILE = NDIRECT + NINDIRECT := rfl
    omega
  rw [wp_ite_neg hd, wp_ite_pos hlt, wp_bind]
  refine ((bmapAddr_spec hw htrans le_rfl).and (bmapAddr_room hw htrans le_rfl)).mono ?_
    fun _ _ => trivial
  rintro ind s₁ ⟨⟨B₁, hm₁, -, -⟩, hroom⟩
  have hw₁ := hw.next hm₁.toWorks hm₁.grew.toKeepsBlocks
  have hinum₁ := hm₁.inum
  have hind₁ := hm₁.slot
  rw [← hinum₁] at hind₁
  simp only [hd, false_or, Fs.freeBlocks]
  by_cases h0 : ind = 0
  · rw [wp_ite_pos h0, wp_pure]
    have hold : (s.work k).slot (s.inode k).inum NDIRECT = 0 := by
      by_contra hne
      rw [if_pos hne] at hroom
      exact hroom.1 h0
    rw [if_neg (not_not.mpr hold), if_pos h0] at hroom
    rw [if_neg (not_not.mpr hold), hroom]
    exact iff_of_true rfl (by decide)
  rw [if_neg h0] at hroom
  rw [wp_ite_neg h0]
  have hget := hw₁.get_indirect (by omega) hmax (hind₁ ▸ h0)
  rw [hind₁] at hget
  simp only [wp_bind, wp_bread, hget]
  -- the data block is still to be allocated, from what is left
  have hleft : (s₁.work k).slot (s₁.inode k).inum (fileSlot bn) = 0 ∧ (s₁.freeSet.card = 0 ↔
      s.freeSet.card < if (s.work k).slot (s.inode k).inum NDIRECT ≠ 0 then 1 else 2) := by
    by_cases hold : (s.work k).slot (s.inode k).inum NDIRECT = 0
    · rw [if_neg (not_not.mpr hold)] at hroom ⊢
      rw [hinum₁, hroom.2, Finset.card_erase_of_mem hroom.1]
      have hpos := Finset.card_pos.mpr ⟨ind, hroom.1⟩
      exact ⟨hm₁.slot_eq_zero hw hroom.2 hslot (by omega), by omega⟩
    · rw [if_pos hold] at hroom ⊢
      rw [hroom.2]
      exact ⟨hslot, by omega⟩
  rw [wp_ite_neg (not_not.mpr hleft.1), wp_bind]
  refine (balloc_spec hw₁.sb (by rwa [hm₁.outstanding]) hw₁.alloc.head).mono ?_ fun _ _ => trivial
  intro b s₂ hb
  have hcount : b = 0 ↔ s.freeSet.card <
      if (s.work k).slot (s.inode k).inum NDIRECT ≠ 0 then 1 else 2 := by
    rw [← hleft.2, Finset.card_eq_zero]
    have hfree := hb.free
    by_cases hb0 : b = 0
    · rw [if_pos hb0] at hfree
      exact iff_of_true hb0 hfree.1
    · rw [if_neg hb0] at hfree
      exact iff_of_false hb0 (Finset.ne_empty_of_mem hfree.1)
  by_cases hb0 : b = 0
  · rw [wp_ite_neg (not_not.mpr hb0), wp_pure]
    exact hcount
  · rw [wp_ite_pos hb0]
    simp only [wp_bind, wp_bread, wp_pure]
    exact (wp_trivial _).imp fun _ _ _ => hcount

end Map

/-- A write inside one block writes everything, or nothing if the block cannot be allocated. -/
lemma writei_block {s : Fs} {k off n : ℕ} (hw : Working s k) (htrans : 1 ≤ s.log.outstanding)
    (src : Bytes) (hn : 0 < n) (hblock : off % BSIZE + n ≤ BSIZE) (hok : ¬WriteRefused s k off n) :
    wp (writei k { byte := src } off n)
      (fun r _ => r = if s.NoBlock k (off / BSIZE) then 0 else (n : ℤ)) (fun _ => True) s := by
  have hbs : BSIZE = 1024 := rfl
  have hsize : (s.inode k).size.toNat = s.size k := rfl
  unfold WriteRefused at hok
  unfold writei
  simp only [wp_bind, wp_get, hsize]
  rw [wp_ite_neg (by omega), wp_ite_neg (by omega), wp_bind]
  -- what follows the loop does not change the result
  have hend : ∀ (tot : ℕ) (s' : Fs), (tot : ℤ) = (if s.NoBlock k (off / BSIZE) then 0 else (n : ℤ)) →
      wp (do
        if off + tot > s.size k then
          setInode k fun x => { x with size := BitVec.ofNat 32 (off + tot) }
        iupdate k
        return (tot : ℤ)) (fun r _ => r = if s.NoBlock k (off / BSIZE) then 0 else (n : ℤ))
        (fun _ => True) s' := fun tot s' htot => by
    rw [wp_ite]
    refine ⟨fun _ => ?_, fun _ => ?_⟩
    all_goals
      simp only [wp_bind, wp_setInode, wp_pure]
      exact (wp_trivial _).imp fun _ _ _ => htot
  obtain ⟨m, rfl⟩ : ∃ m, n = m + 1 := ⟨n - 1, by omega⟩
  rw [writeiLoop, wp_ite_neg (by omega), wp_bind]
  have hbn : off / BSIZE < MAXFILE := by
    rw [hbs] at hok ⊢
    omega
  refine (bmap_room hw htrans hbn).imp fun a s₁ ha => ?_
  by_cases ha0 : a = 0
  · rw [wp_ite_pos ha0, wp_pure]
    refine hend 0 s₁ ?_
    rw [if_pos (ha.mp ha0)]
    rfl
  · rw [wp_ite_neg ha0]
    simp only [wp_bind, wp_bread]
    refine (wp_trivial _).imp fun _ s₂ _ => ?_
    have hmin : min (m + 1 - 0) (BSIZE - off % BSIZE) = m + 1 := by omega
    have hloop : ∀ fuel, writeiLoop k { byte := src } (m + 1) fuel (0 + min (m + 1 - 0)
        (BSIZE - off % BSIZE)) (off + min (m + 1 - 0) (BSIZE - off % BSIZE)) =
        (return (m + 1) : FsM ℕ) := fun fuel => by
      rw [hmin, Nat.zero_add]
      cases fuel with
      | zero => rfl
      | succ fuel => rw [writeiLoop, if_pos (le_refl _)]
    rw [hloop, wp_pure]
    refine hend (m + 1) s₂ ?_
    rw [if_neg fun hc => ha0 (ha.mpr hc)]

end Xv6
