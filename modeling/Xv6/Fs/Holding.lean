import Xv6.Fs.Table

/-!
# References and locks of a call

A call takes references to inodes and locks them.  `Holding s s' R L` relates the state at its start to
a later one: it holds the references `R` and the locks `L`, and the inode table is otherwise the one
of the start, up to copies that have been read from disk and entries that nobody uses.  No one else
holds a lock, since calls run one at a time.
-/

namespace Xv6

open Multiset

/-- The call that started in `s` holds the references `R` and the locks `L`. -/
structure Holding (s s' : Fs) (R : Multiset ℕ) (L : Finset ℕ) : Prop where
  ok : FsOk s'
  sb : s'.sb = s.sb
  ref : ∀ j, (s'.inode j).ref = (s.inode j).ref + R.count j
  inum : ∀ j, 0 < (s.inode j).ref → (s'.inode j).inum = (s.inode j).inum
  locked : ∀ j, (s'.inode j).locked = true ↔ j ∈ L

/-- The reference that comes with a result. -/
def resultRefs : Option ℕ → Multiset ℕ
  | none => 0
  | some ip => {ip}

/-- Only the inode table may have changed. -/
structure TableOnly (s s' : Fs) : Prop where
  log : s'.log = s.log
  sb : s'.sb = s.sb

namespace TableOnly

variable {s s' s'' : Fs}

lemma trans (h : TableOnly s s') (h' : TableOnly s' s'') : TableOnly s s'' :=
  ⟨h'.log.trans h.log, h'.sb.trans h.sb⟩

lemma img (h : TableOnly s s') : s'.img = s.img := by rw [Fs.img, Fs.img, h.log, h.sb]

lemma logs (h : TableOnly s s') : Logs s s' [] := Logs.of_eq h.log h.sb

lemma onInode (s : Fs) (ip : ℕ) (f : Inode → Inode) : TableOnly s (s.onInode ip f) := ⟨rfl, rfl⟩

lemma ilocked (s : Fs) (ip : ℕ) : TableOnly s (s.ilocked ip) := ⟨rfl, rfl⟩

lemma got {inum ip : ℕ} (h : Got s inum ip s') : TableOnly s s' := by
  cases h <;> exact ⟨rfl, rfl⟩

end TableOnly

namespace Holding

variable {s s₁ s₂ : Fs} {R : Multiset ℕ} {L : Finset ℕ} {ip inum : ℕ}

/-- A call starts with nothing. -/
lemma start (h : FsOk s) (hlock : ∀ j, (s.inode j).locked = false) : Holding s s 0 ∅ where
  ok := h
  sb := rfl
  ref j := by simp
  inum _ _ := rfl
  locked j := by simp [hlock]

section

variable (h : Holding s s₁ R L)
include h

lemma ref_pos (hs : FsOk s) (hmem : ip ∈ R) : 0 < (s₁.inode ip).ref := by
  have := hs.table.ref ip
  have := count_pos.mpr hmem
  rw [h.ref]
  omega

lemma unlocked (hL : ip ∉ L) : (s₁.inode ip).locked = false := by
  rw [← Bool.not_eq_true, h.locked]
  exact hL

/-- The references and the locks after a change to an entry that stays in use for the same inode. -/
lemma onInode {f : Inode → Inode} {R' : Multiset ℕ} {L' : Finset ℕ}
    (hok : FsOk (s₁.onInode ip f)) (hinum : (f (s₁.inode ip)).inum = (s₁.inode ip).inum)
    (href : (f (s₁.inode ip)).ref = (s.inode ip).ref + R'.count ip)
    (hR : ∀ j ≠ ip, R'.count j = R.count j)
    (hlock : (f (s₁.inode ip)).locked = true ↔ ip ∈ L') (hL : ∀ j ≠ ip, j ∈ L' ↔ j ∈ L) :
    Holding s (s₁.onInode ip f) R' L' := by
  refine ⟨hok, h.sb, fun j => ?_, fun j hj => ?_, fun j => ?_⟩
  all_goals
    by_cases hji : j = ip
    · subst hji
      rw [onInode_self]
      first | exact href | exact hinum.trans (h.inum j hj) | exact hlock
    · rw [onInode_of_ne hji]
      first
        | rw [hR j hji]; exact h.ref j
        | exact h.inum j hj
        | rw [hL j hji]; exact h.locked j

/-- `iget` gives a reference. -/
lemma got (hs : FsOk s) (hi : inum < s.sb.ninodes)
    (hgot : Got s₁ inum ip s₂) : Holding s s₂ (ip ::ₘ R) L := by
  have hok := h.ok.got (h.sb ▸ hi) hgot
  have hcount : (ip ::ₘ R).count ip = R.count ip + 1 := count_cons_self ip R
  cases hgot with
  | found hlt href hinum =>
    refine h.onInode hok rfl ?_ (fun j hj => count_cons_of_ne hj R) (h.locked ip)
      fun _ _ => Iff.rfl
    dsimp only
    rw [h.ref, hcount]
    push_cast
    omega
  | recycled hlt href hnone =>
    have hold := h.ref ip
    have hpos := hs.table.ref ip
    refine ⟨hok, h.sb, fun j => ?_, fun j hj => ?_, fun j => ?_⟩
    · by_cases hji : j = ip
      · subst hji
        rw [onInode_self, hcount]
        dsimp only
        push_cast
        omega
      · rw [onInode_of_ne hji, count_cons_of_ne hji]
        exact h.ref j
    · have hji : j ≠ ip := by
        rintro rfl
        omega
      rw [onInode_of_ne hji]
      exact h.inum j hj
    · by_cases hji : j = ip
      · subst hji
        rw [onInode_self]
        exact h.locked j
      · rw [onInode_of_ne hji]
        exact h.locked j

/-- `idup` of a reference that somebody has. -/
lemma addRef (hpos : 0 < (s₁.inode ip).ref) :
    Holding s (s₁.onInode ip fun x => { x with ref := x.ref + 1 }) (ip ::ₘ R) L := by
  refine h.onInode (h.ok.addRef hpos) rfl ?_ (fun j hj => count_cons_of_ne hj R)
    (h.locked ip) fun _ _ => Iff.rfl
  dsimp only
  rw [h.ref, count_cons_self]
  push_cast
  omega

lemma ilocked (htype : (s₁.img.dino (s₁.inode ip).inum).type ≠ 0) :
    Holding s (s₁.ilocked ip) R (insert ip L) :=
  h.onInode (h.ok.ilocked htype) rfl (h.ref ip) (fun _ _ => rfl)
    (iff_of_true rfl (Finset.mem_insert_self ip L))
    fun j hj => by rw [Finset.mem_insert, or_iff_right hj]

lemma iunlocked : Holding s (s₁.onInode ip fun x => { x with locked := false }) R (L.erase ip) :=
  h.onInode (h.ok.setLocked false) rfl (h.ref ip) (fun _ _ => rfl)
    (iff_of_false (by simp) (Finset.notMem_erase ip L))
    fun j hj => by rw [Finset.mem_erase, and_iff_right hj]

end

lemma dropRef (h : Holding s s₁ (ip ::ₘ R) L) (hs : FsOk s) :
    Holding s (s₁.onInode ip fun x => { x with ref := x.ref - 1 }) R L := by
  refine h.onInode (h.ok.dropRef (h.ref_pos hs (mem_cons_self ip R))) rfl ?_
    (fun j hj => (count_cons_of_ne hj R).symm) (h.locked ip) fun _ _ => Iff.rfl
  dsimp only
  rw [h.ref, count_cons_self]
  push_cast
  omega

/-! ## The calls -/

section Calls

variable (hs : FsOk s)

include hs

lemma wp_iget (h : Holding s s₁ R L) (hi : inum < s.sb.ninodes) :
    wp (iget inum) (fun ip s₂ => Got s₁ inum ip s₂ ∧ Holding s s₂ (ip ::ₘ R) L) (TableFull s₁) s₁ :=
  (iget_spec s₁ inum).imp fun _ _ hgot => ⟨hgot, h.got hs hi hgot⟩

lemma wp_ilock (h : Holding s s₁ R L) (hmem : ip ∈ R) (hL : ip ∉ L)
    (htype : (s₁.img.dino (s₁.inode ip).inum).type ≠ 0) :
    Returns (ilock ip) (fun _ s₂ => s₂ = s₁.ilocked ip ∧ Holding s s₂ R (insert ip L)) s₁ := by
  refine (ilock_spec h.ok (h.ref_pos hs hmem) (h.unlocked hL) htype).imp ?_
  rintro - s₂ rfl
  exact ⟨rfl, h.ilocked htype⟩

lemma wp_iunlock (h : Holding s s₁ R L) (hmem : ip ∈ R) (hL : ip ∈ L) :
    Returns (iunlock ip) (fun _ s₂ => s₂ = (s₁.onInode ip fun x => { x with locked := false }) ∧
      Holding s s₂ R (L.erase ip)) s₁ := by
  refine (iunlock_spec (h.ref_pos hs hmem) ((h.locked ip).mpr hL)).imp ?_
  rintro - s₂ rfl
  exact ⟨rfl, h.iunlocked⟩

/-- `iput`, if there are other references or links. -/
lemma wp_iput (h : Holding s s₁ (ip ::ₘ R) L)
    (hkeep : 0 < (s.inode ip).ref ∨ ip ∈ R ∨ ((s₁.inode ip).valid = true → (s₁.inode ip).nlink ≠ 0)) :
    Returns (iput ip) (fun _ s₂ => s₂ = (s₁.onInode ip fun x => { x with ref := x.ref - 1 }) ∧
      Holding s s₂ R L) s₁ := by
  have hskip : ¬((s₁.inode ip).ref = 1 ∧ (s₁.inode ip).valid ∧ (s₁.inode ip).nlink = 0) := by
    rintro ⟨h1, hv, hlink⟩
    rw [h.ref, count_cons_self] at h1
    have := hs.table.ref ip
    push_cast at h1
    rcases hkeep with hpos | hmem | hlink'
    · omega
    · have := count_pos.mpr hmem
      omega
    · exact hlink' hv hlink
  refine (iput_spec hskip).imp ?_
  rintro - s₂ rfl
  exact ⟨rfl, h.dropRef hs⟩

/-- `iunlockput`, if there are other references or links. -/
lemma wp_iunlockput (h : Holding s s₁ (ip ::ₘ R) L) (hL : ip ∈ L)
    (hkeep : 0 < (s.inode ip).ref ∨ ip ∈ R ∨ (s₁.inode ip).nlink ≠ 0) :
    Returns (iunlockput ip) (fun _ s₂ =>
      s₂ = (s₁.onInode ip fun x => { x with locked := false, ref := x.ref - 1 }) ∧
      Holding s s₂ R (L.erase ip)) s₁ := by
  unfold Returns iunlockput
  rw [wp_bind]
  refine (h.wp_iunlock hs (mem_cons_self ip R) hL).imp ?_
  rintro - s₂ ⟨rfl, h₂⟩
  refine (h₂.wp_iput hs (hkeep.imp_right (Or.imp_right fun hlink _ => ?_))).imp ?_
  · rwa [onInode_self]
  · rintro - s₃ ⟨rfl, h₃⟩
    refine ⟨?_, h₃⟩
    simp only [Fs.onInode, Function.update_self, Function.update_idem]

end Calls

end Holding

end Xv6
