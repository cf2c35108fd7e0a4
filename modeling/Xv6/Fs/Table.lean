import Xv6.Fs.Inv

/-!
# The inode table

`iget`, `ilock`, `iunlock` and `iput`.  A reference is taken with `iget`, and the inode may be used
between `ilock` and `iunlock`; nothing but the copy of the inode, its reference count and its lock
changes, and `FsOk` is kept.

`iput` frees an inode without links when its last reference goes.  A reference that has just been taken
never is the last one that way: either there are other references, or the entry is new and has no
copy yet (`iput_got`).
-/

namespace Xv6

/-- All entries of the inode table are in use. -/
def TableFull (s : Fs) (e : String) : Prop :=
  e = "iget: no inodes" ∧ ∀ j < NINODE, (s.inode j).ref ≠ 0

/-- `iget` has found the inode in entry `ip`, or has put it there. -/
inductive Got (s : Fs) (inum ip : ℕ) : Fs → Prop
  | found (hlt : ip < NINODE) (href : 0 < (s.inode ip).ref) (hinum : (s.inode ip).inum = inum) :
    Got s inum ip (s.onInode ip fun x => { x with ref := x.ref + 1 })
  | recycled (hlt : ip < NINODE) (href : (s.inode ip).ref = 0)
    (hnone : ∀ j < NINODE, 0 < (s.inode j).ref → (s.inode j).inum ≠ inum) :
    Got s inum ip (s.onInode ip fun x => { x with inum := inum, ref := 1, valid := false })

lemma iget_spec (s : Fs) (inum : ℕ) : wp (iget inum) (Got s inum) (TableFull s) s := by
  unfold iget
  simp only [wp_bind, wp_get]
  split
  · next ip hfind =>
    obtain ⟨hlt, hip⟩ := find_range hfind
    rw [decide_eq_true_eq] at hip
    simp only [wp_bind, wp_setInode, wp_pure]
    exact .found hlt hip.1 hip.2
  · next hnone =>
    have hnone' : ∀ j < NINODE, 0 < (s.inode j).ref → (s.inode j).inum ≠ inum := fun j hj href heq => by
      have := List.find?_eq_none.mp hnone j (List.mem_range.mpr hj)
      exact this (decide_eq_true ⟨href, heq⟩)
    split
    · next hfull =>
      refine ⟨rfl, fun j hj href => ?_⟩
      have := List.find?_eq_none.mp hfull j (List.mem_range.mpr hj)
      exact this (decide_eq_true href)
    · next ip hfind =>
      obtain ⟨hlt, hip⟩ := find_range hfind
      rw [decide_eq_true_eq] at hip
      simp only [wp_bind, wp_setInode, wp_pure]
      exact .recycled hlt hip hnone'

/-- The states agree but for entries of the inode table that are not in use. -/
structure Like (s s' : Fs) : Prop where
  log : s'.log = s.log
  sb : s'.sb = s.sb
  inode : ∀ j, s'.inode j = s.inode j ∨
    (s.inode j).ref = 0 ∧ (s'.inode j).ref = 0 ∧ (s'.inode j).locked = (s.inode j).locked

namespace Like

variable {s s' : Fs} {k : ℕ}

lemma img (h : Like s s') : s'.img = s.img := by rw [Fs.img, Fs.img, h.log, h.sb]

lemma inode_eq (h : Like s s') (hk : 0 < (s.inode k).ref) : s'.inode k = s.inode k :=
  (h.inode k).resolve_right fun hc => by omega

lemma logs (h : Like s s') : Logs s s' [] := Logs.of_eq h.log h.sb

end Like

/-- `iput` of a reference that is not the last one to an inode without links. -/
lemma iput_spec {s : Fs} {ip : ℕ}
    (hkeep : ¬((s.inode ip).ref = 1 ∧ (s.inode ip).valid ∧ (s.inode ip).nlink = 0)) :
    Returns (iput ip) (fun _ s' => s' = s.onInode ip fun x => { x with ref := x.ref - 1 }) s := by
  unfold Returns iput
  simp only [wp_bind, wp_get]
  rw [wp_ite_neg hkeep]
  simp only [wp_bind, wp_setInode, wp_ite_neg hkeep, wp_pure]

section Got

variable {s s' : Fs} {inum ip k : ℕ}

section

variable (h : Got s inum ip s')
include h

lemma Got.lt : ip < NINODE := by
  cases h <;> assumption

lemma Got.inum_eq : (s'.inode ip).inum = inum := by
  cases h with
  | found hlt href hinum => rw [onInode_self, hinum]
  | recycled hlt href hnone => rw [onInode_self]

lemma Got.logs : Logs s s' [] := by
  cases h <;> exact Logs.of_eq rfl rfl

lemma Got.img : s'.img = s.img := by
  cases h <;> rfl

lemma Got.inode_of_ne (hk : k ≠ ip) : s'.inode k = s.inode k := by
  cases h <;> exact onInode_of_ne hk

/-- `iget` does not touch the copies. -/
lemma Got.toDinode (k : ℕ) : (s'.inode k).toDinode = (s.inode k).toDinode := by
  by_cases hk : k = ip
  · subst hk
    cases h <;> rw [onInode_self]
  · rw [h.inode_of_ne hk]

/-- A reference that has just been taken is dropped without more ado. -/
lemma iput_got : Returns (iput ip) (fun _ s'' => Like s s'') s' := by
  have hskip : ¬((s'.inode ip).ref = 1 ∧ (s'.inode ip).valid ∧ (s'.inode ip).nlink = 0) := by
    cases h with
    | found hlt href hinum =>
      rw [onInode_self]
      exact fun hc => by have := hc.1; dsimp only at this; omega
    | recycled hlt href hnone =>
      rw [onInode_self]
      exact fun hc => absurd hc.2.1 (by simp)
  refine (iput_spec hskip).imp ?_
  rintro - s'' rfl
  cases h with
  | found hlt href hinum =>
    refine ⟨rfl, rfl, fun j => Or.inl ?_⟩
    by_cases hj : j = ip
    · subst hj
      rw [onInode_self, onInode_self]
      simp only [Int.add_sub_cancel]
    · rw [onInode_of_ne hj, onInode_of_ne hj]
  | recycled hlt href hnone =>
    refine ⟨rfl, rfl, fun j => ?_⟩
    by_cases hj : j = ip
    · subst hj
      refine Or.inr ⟨href, ?_⟩
      rw [onInode_self, onInode_self]
      exact ⟨rfl, rfl⟩
    · rw [onInode_of_ne hj, onInode_of_ne hj]
      exact Or.inl rfl

end

end Got

/-! ## The invariant -/

section Inv

variable {s s' : Fs} {ip inum : ℕ}

section

variable (h : FsOk s)
include h

/-- A change to an entry of the table that stays an entry for the same inode. -/
lemma FsOk.onInode {f : Inode → Inode} (hinum : (f (s.inode ip)).inum = (s.inode ip).inum)
    (href : 0 ≤ (f (s.inode ip)).ref) (hpos : 0 < (f (s.inode ip)).ref → 0 < (s.inode ip).ref)
    (hcopy : 0 < (s.inode ip).ref → (f (s.inode ip)).valid = true → (f (s.inode ip)).type ≠ 0 ∧
      s.img.dino (s.inode ip).inum = (f (s.inode ip)).toDinode) : FsOk (s.onInode ip f) := by
  refine ⟨h.sb, h.alloc, h.noHole, ?_⟩
  -- the other entries are as they were
  have hself : (s.onInode ip f).inode ip = f (s.inode ip) := onInode_self
  have hne : ∀ {j}, j ≠ ip → (s.onInode ip f).inode j = s.inode j := fun hj => onInode_of_ne hj
  have hused : ∀ j, 0 < ((s.onInode ip f).inode j).ref → 0 < (s.inode j).ref := fun j hj => by
    by_cases hji : j = ip
    · rw [hji, hself] at hj
      rw [hji]
      exact hpos hj
    · rwa [hne hji] at hj
  have hnum : ∀ j, ((s.onInode ip f).inode j).inum = (s.inode j).inum := fun j => by
    by_cases hji : j = ip
    · rw [hji, hself, hinum]
    · rw [hne hji]
  refine ⟨fun j => ?_, fun j hj => h.table.range j (hused j hj), fun j hj => ?_,
    fun j j' hj hj' heq => ?_, fun j hj hv => ?_, fun j hj hv => ?_⟩
  · by_cases hji : j = ip
    · rw [hji, hself]
      exact href
    · rw [hne hji]
      exact h.table.ref j
  · rw [hnum]
    exact h.table.inum j (hused j hj)
  · rw [hnum, hnum] at heq
    exact h.table.unique j j' (hused j hj) (hused j' hj') heq
  · have hold := hused j hj
    by_cases hji : j = ip
    · subst hji
      rw [hself] at hv ⊢
      exact (hcopy hold hv).1
    · rw [hne hji] at hv ⊢
      exact h.table.type j hold hv
  · have hold := hused j hj
    rw [onInode_img, hnum]
    by_cases hji : j = ip
    · subst hji
      rw [hself] at hv ⊢
      exact (hcopy hold hv).2
    · rw [hne hji] at hv ⊢
      exact h.table.copy j hold hv

lemma FsOk.copy_eq (hpos : 0 < (s.inode ip).ref) (hv : (s.inode ip).valid = true) :
    (s.inode ip).type ≠ 0 ∧ s.img.dino (s.inode ip).inum = (s.inode ip).toDinode :=
  ⟨h.table.type ip hpos hv, h.table.copy ip hpos hv⟩

/-- One more reference. -/
lemma FsOk.addRef (hpos : 0 < (s.inode ip).ref) :
    FsOk (s.onInode ip fun x => { x with ref := x.ref + 1 }) :=
  h.onInode rfl (by dsimp only; omega) (fun _ => hpos) fun hpos hv => h.copy_eq hpos hv

/-- One reference less. -/
lemma FsOk.dropRef (hpos : 0 < (s.inode ip).ref) :
    FsOk (s.onInode ip fun x => { x with ref := x.ref - 1 }) :=
  h.onInode rfl (by dsimp only; omega) (fun _ => hpos) fun hpos hv => h.copy_eq hpos hv

lemma FsOk.setLocked (b : Bool) : FsOk (s.onInode ip fun x => { x with locked := b }) :=
  h.onInode rfl (h.table.ref ip) id fun hpos hv => h.copy_eq hpos hv

/-- `iget` keeps the invariant. -/
lemma FsOk.got (hi : inum < s.sb.ninodes) (hgot : Got s inum ip s') : FsOk s' := by
  cases hgot with
  | found hlt href hinum => exact h.addRef href
  | recycled hlt href hnone =>
    refine ⟨h.sb, h.alloc, h.noHole, ?_⟩
    have hself : ∀ j, j = ip → (s.onInode ip fun x =>
        { x with inum := inum, ref := 1, valid := false }).inode j =
        { s.inode ip with inum := inum, ref := 1, valid := false } := fun j hj => by
      rw [hj, onInode_self]
    have hne : ∀ j, j ≠ ip → (s.onInode ip fun x =>
        { x with inum := inum, ref := 1, valid := false }).inode j = s.inode j :=
      fun j hj => onInode_of_ne hj
    refine ⟨fun j => ?_, fun j hj => ?_, fun j hj => ?_, fun j j' hj hj' heq => ?_,
      fun j hj hv => ?_, fun j hj hv => ?_⟩
    · by_cases hji : j = ip
      · rw [hself j hji]
        exact Int.one_nonneg
      · rw [hne j hji]
        exact h.table.ref j
    · by_cases hji : j = ip
      · rw [hji]
        exact hlt
      · rw [hne j hji] at hj
        exact h.table.range j hj
    · by_cases hji : j = ip
      · rw [hself j hji]
        exact hi
      · rw [hne j hji] at hj ⊢
        exact h.table.inum j hj
    · by_cases hji : j = ip
      · by_cases hji' : j' = ip
        · rw [hji, hji']
        · rw [hne j' hji'] at hj' heq
          rw [hself j hji] at heq
          exact absurd heq.symm (hnone j' (h.table.range j' hj') hj')
      · rw [hne j hji] at hj heq
        by_cases hji' : j' = ip
        · rw [hself j' hji'] at heq
          exact absurd heq (hnone j (h.table.range j hj) hj)
        · rw [hne j' hji'] at hj' heq
          exact h.table.unique j j' hj hj' heq
    · by_cases hji : j = ip
      · rw [hself j hji] at hv
        exact absurd hv (by simp)
      · rw [hne j hji] at hj hv ⊢
        exact h.table.type j hj hv
    · by_cases hji : j = ip
      · rw [hself j hji] at hv
        exact absurd hv (by simp)
      · rw [hne j hji] at hj hv ⊢
        exact h.table.copy j hj hv

end

/-! ## Locks -/

/-- Inode `ip` is locked, and its copy is that of the disk. -/
def Fs.ilocked (s : Fs) (ip : ℕ) : Fs :=
  s.onInode ip fun x => { x with toDinode := s.img.dino x.inum, valid := true, locked := true }

/-- `ilock` of an inode that is not locked by anyone. -/
lemma ilock_spec (h : FsOk s) (hpos : 0 < (s.inode ip).ref) (hlock : (s.inode ip).locked = false)
    (htype : (s.img.dino (s.inode ip).inum).type ≠ 0) :
    Returns (ilock ip) (fun _ s' => s' = s.ilocked ip) s := by
  unfold Returns ilock acquiresleep
  simp only [wp_bind, wp_get]
  rw [wp_ite_neg (by omega)]
  simp only [wp_bind, wp_get, hlock]
  rw [wp_ite_neg (by decide)]
  simp only [wp_setInode, onInode_self]
  by_cases hv : (s.inode ip).valid = true
  · rw [wp_ite_neg (by simp [hv])]
    have hcopy := h.table.copy ip hpos hv
    rw [wp_pure, Fs.ilocked, Fs.onInode, Fs.onInode]
    congr 2
    rw [hcopy, ← hv]
  · have hdino : Dinode.read (s.log.blk (s.sb.iblock (s.inode ip).inum))
        (inodeOffset (s.inode ip).inum) = s.img.dino (s.inode ip).inum :=
      (imgOf_dino (h.table.inum ip hpos)).symm
    rw [wp_ite_pos (by simpa using hv)]
    simp only [wp_bind, wp_bread, onInode_log, onInode_sb, wp_setInode, hdino]
    rw [wp_ite_neg htype, wp_pure, Fs.ilocked]
    simp only [Fs.onInode, Function.update_self, Function.update_idem]

/-- `iunlock` of a locked inode. -/
lemma iunlock_spec (hpos : 0 < (s.inode ip).ref) (hlock : (s.inode ip).locked = true) :
    Returns (iunlock ip) (fun _ s' => s' = s.onInode ip fun x => { x with locked := false }) s := by
  unfold Returns iunlock releasesleep
  simp only [wp_bind, wp_get, hlock]
  rw [wp_ite_neg (by simp; omega)]
  exact rfl

lemma FsOk.ilocked (h : FsOk s) (htype : (s.img.dino (s.inode ip).inum).type ≠ 0) :
    FsOk (s.ilocked ip) :=
  h.onInode rfl (h.table.ref ip) id fun _ _ => ⟨htype, rfl⟩

end Inv

end Xv6
