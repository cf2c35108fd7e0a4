import Xv6.Fs.Blocks

/-!
# The blocks of an inode

`bmap` and `itrunc`.  Code that works on inode `k` of the table changes its in-memory copy first and
stores it at the end; in between, the image it works on is the one of the disk with the copy in
place of the stored inode, `Fs.work`.
-/

namespace Xv6

open Function

/-- The image with the in-memory copy of inode `k`. -/
def Fs.work (s : Fs) (k : ℕ) : Img := s.img.setDino (s.inode k).inum (s.inode k).toDinode

/-- Inode `k` can be worked on. -/
structure Working (s : Fs) (k : ℕ) : Prop where
  sb : s.sb.Ok
  inum : (s.inode k).inum < s.sb.ninodes
  type : (s.inode k).type ≠ 0
  alloc : Alloc s.sb (s.work k).slot (s.work k).bit

/-- Code that works on inode `k` has logged the blocks `B`; of the inode table, only the copy has
changed. -/
structure Works (s s' : Fs) (k : ℕ) (B : List ℕ) : Prop extends Logs s s' B where
  others : ∀ j ≠ k, s'.inode j = s.inode j
  self : s'.inode k = { s.inode k with toDinode := (s'.inode k).toDinode }

namespace Works

variable {s s' s'' : Fs} {k : ℕ} {B B' : List ℕ}

lemma refl (s : Fs) (k : ℕ) : Works s s k [] := ⟨Logs.refl s, fun _ _ => rfl, rfl⟩

lemma trans (h : Works s s' k B) (h' : Works s' s'' k B') : Works s s'' k (B ++ B') :=
  ⟨h.toLogs.trans h'.toLogs, fun j hj => (h'.others j hj).trans (h.others j hj), by
    rw [h'.self, h.self]⟩

lemma of_writes {g : Img} (h : Writes s s' g B) : Works s s' k B :=
  ⟨h.toLogs, fun _ _ => by rw [h.inode], by rw [h.inode]⟩

lemma inum (h : Works s s' k B) : (s'.inode k).inum = (s.inode k).inum := by rw [h.self]

end Works

variable {s s' : Fs} {B : List ℕ} {k bn n b i j : ℕ} {E : String → Prop} {f : ℕ → ℕ → ℕ}
  {d : Dinode}

lemma Writes.work {g : Img} (h : Writes s s' g B) (k : ℕ) :
    s'.work k = g.setDino (s.inode k).inum (s.inode k).toDinode := by
  rw [Fs.work, h.img, h.inode]

section Work

variable {s : Fs} {k : ℕ}

@[simp] lemma work_data : (s.work k).data = s.img.data := rfl

lemma work_dino_self : (s.work k).dino (s.inode k).inum = (s.inode k).toDinode := Img.setDino_self

lemma work_dino_of_ne {i : ℕ} (h : i ≠ (s.inode k).inum) : (s.work k).dino i = s.img.dino i :=
  Img.setDino_of_ne h

end Work

namespace Working

variable {s : Fs} {k n bn : ℕ} (hw : Working s k)

include hw

lemma type_work : ((s.work k).dino (s.inode k).inum).type ≠ 0 := by
  rw [work_dino_self]
  exact hw.type

lemma slot_addr (hn : n ≤ NDIRECT) : (s.work k).slot (s.inode k).inum n = (s.inode k).addr n := by
  rw [Img.slot_direct hw.type_work hn, work_dino_self]

/-- A block of a file is read off the disk. -/
lemma blk_slot {i : ℕ} (h : (s.work k).slot i n ≠ 0) : s.log.blk ((s.work k).slot i n) =
    (s.work k).data ((s.work k).slot i n) := by
  obtain ⟨hle, hlt⟩ := hw.alloc.range _ _ h
  exact (imgOf_data hle hlt).symm

/-- An entry of the indirect block. -/
lemma get_indirect (hbn : NDIRECT ≤ bn) (hlt : bn < MAXFILE)
    (hind : (s.work k).slot (s.inode k).inum NDIRECT ≠ 0) :
    ((s.log.blk ((s.work k).slot (s.inode k).inum NDIRECT)).get32 (4 * (bn - NDIRECT))).toNat =
      (s.work k).slot (s.inode k).inum (fileSlot bn) := by
  have hfs : fileSlot bn = bn + 1 := if_neg (by omega)
  have hmax : MAXFILE = NDIRECT + NINDIRECT := rfl
  have hnslot : NSLOT = NDIRECT + 1 + NINDIRECT := rfl
  rw [hw.blk_slot hind, hfs, Img.slot_indirect (n := bn + 1) hw.type_work (by omega) (by omega) hind,
    show bn + 1 - (NDIRECT + 1) = bn - NDIRECT by omega]

end Working

/-! ## Finding blocks -/

/-- `bmap` of a block that is there changes nothing. -/
lemma bmap_of_slot (hw : Working s k) (hbn : bn < MAXFILE)
    (hslot : (s.work k).slot (s.inode k).inum (fileSlot bn) ≠ 0) :
    wp (bmap k bn) (fun a s' =>
      a = (s.work k).slot (s.inode k).inum (fileSlot bn) ∧ s' = s) E s := by
  unfold bmap
  by_cases hd : bn < NDIRECT
  · have hfs : fileSlot bn = bn := if_pos hd
    rw [hfs, hw.slot_addr (by omega)] at hslot ⊢
    rw [wp_ite_pos hd]
    unfold bmapAddr
    simp only [wp_bind, wp_get]
    rw [wp_ite_pos hslot]
    exact ⟨rfl, rfl⟩
  · have hmax : MAXFILE = NDIRECT + NINDIRECT := rfl
    have hind : (s.work k).slot (s.inode k).inum NDIRECT ≠ 0 := fun h0 =>
      hslot (Img.slot_indirect_zero (by rw [fileSlot, if_neg hd]; omega) h0)
    have hget := hw.get_indirect (by omega) hbn hind
    have hind' := hw.slot_addr le_rfl ▸ hind
    rw [wp_ite_neg hd, wp_ite_pos (by omega)]
    unfold bmapAddr
    simp only [wp_bind, wp_get]
    rw [wp_ite_pos hind', wp_pure, wp_ite_neg hind', ← hw.slot_addr le_rfl]
    simp only [wp_bind, wp_bread, hget]
    rw [wp_ite_pos hslot]
    exact ⟨rfl, rfl⟩

/-- Slot `n` of inode `k` has been looked up, and given a block if it was empty; `a` is the block, or 0
if the disk is full. -/
structure Mapped (s : Fs) (k n a : ℕ) (s' : Fs) (B : List ℕ) : Prop extends Works s s' k B where
  grew : Grew s.sb (s.work k) (s'.work k) (s.inode k).inum
  slot : (s'.work k).slot (s.inode k).inum n = a
  nospace : a = 0 → ∀ c < s.sb.size, s'.img.bit c = true

lemma Working.next (hw : Working s k) (h : Works s s' k B)
    (hg : KeepsBlocks s.sb (s.work k) (s'.work k) (s.inode k).inum) : Working s' k where
  sb := h.sb ▸ hw.sb
  inum := by
    rw [h.inum, h.sb]
    exact hw.inum
  type := by
    have ht := hg.type_eq (s.inode k).inum
    rw [work_dino_self, ← h.inum, work_dino_self] at ht
    rw [ht]
    exact hw.type
  alloc := by
    rw [h.sb]
    exact hg.alloc

/-- A free block is put in a direct slot. -/
lemma setAddr_spec (hw : Working s k) (hn : n ≤ NDIRECT)
    (hempty : (s.work k).slot (s.inode k).inum n = 0) (hlt : b < s.sb.size) (hb0 : b ≠ 0)
    (hfree : s.img.bit b = false) (hwr : Writes s s' (s.img.fresh b) [s.sb.bblock b, b]) :
    wp (setAddr k n b) (fun _ s'' => Mapped s k n b s'' [s.sb.bblock b, b]) E s' := by
  rw [setAddr, wp_setInode]
  have hk : (s'.onInode k fun x => { x with toDinode := x.setAddr n b }).inode k =
      { s.inode k with toDinode := (s.inode k).setAddr n b } := by
    rw [onInode_self, hwr.inode]
  have hwork : (s'.onInode k fun x => { x with toDinode := x.setAddr n b }).work k =
      (s.work k).assign (s.inode k).inum n b := by
    rw [Fs.work, hk, Img.assign, if_pos hn, work_dino_self]
    rw [onInode_img, hwr.img, Fs.work]
    simp only [Img.setDino, Img.fresh, Img.setData, Img.setBit, update_idem]
  obtain ⟨hgrew, hslot⟩ := Img.grew_assign hw.alloc hfree hlt hw.sb.size hw.type_work
    (lt_of_le_of_lt hn (by decide)) hempty fun h => absurd h (by omega)
  refine ⟨⟨?_, ?_, ?_⟩, ?_, ?_, fun h => absurd h hb0⟩
  · exact hwr.toLogs.trans (Logs.of_eq rfl rfl)
  · intro j hj
    rw [onInode_of_ne hj, hwr.inode]
  · rw [hk]
  · rwa [hwork]
  · rwa [hwork]

/-- `ip->addrs[n]`. -/
lemma bmapAddr_spec (hw : Working s k) (htrans : 1 ≤ s.log.outstanding) (hn : n ≤ NDIRECT) :
    wp (bmapAddr k n) (fun a s' => ∃ B, Mapped s k n a s' B ∧ B.length ≤ 2 ∧ ∀ x ∈ B,
      (s.work k).slot (s.inode k).inum n = 0 ∧ a ≠ 0 ∧ (x = a ∨ x = s.sb.bblock a)) (Full s 2) s := by
  have haddr := hw.slot_addr hn
  unfold bmapAddr
  simp only [wp_bind, wp_get]
  by_cases h0 : (s.inode k).addr n = 0
  · have hempty := haddr.trans h0
    rw [wp_ite_neg (not_not.mpr h0), wp_bind]
    refine (balloc_spec hw.sb htrans hw.alloc.head).imp ?_
    rintro b s₁ (⟨rfl, rfl, hfull⟩ | ⟨hb0, hlt, hfree, hwr⟩)
    · rw [wp_ite_pos rfl]
      exact ⟨[], ⟨Works.refl _ _, Grew.refl hw.alloc, hempty, fun _ => hfull⟩, by simp, by simp⟩
    · rw [wp_ite_neg hb0, wp_bind]
      refine (setAddr_spec hw hn hempty hlt hb0 hfree hwr).imp fun _ s₂ hm => ?_
      exact ⟨_, hm, le_rfl, fun x hx => ⟨hempty, hb0, by simpa [or_comm] using hx⟩⟩
  · rw [wp_ite_pos h0]
    exact ⟨[], ⟨Works.refl _ _, Grew.refl hw.alloc, haddr, fun h => absurd h h0⟩, by simp, by simp⟩

/-- A free block is put in the indirect block `ind`. -/
lemma logIndirect_spec {ind : ℕ} (hw : Working s k)
    (htrans : 1 ≤ s.log.outstanding) (hbn : NDIRECT ≤ bn) (hmax : bn < MAXFILE)
    (hind : (s.work k).slot (s.inode k).inum NDIRECT = ind) (hind0 : ind ≠ 0)
    (hempty : (s.work k).slot (s.inode k).inum (fileSlot bn) = 0) (hlt : b < s.sb.size) (hb0 : b ≠ 0)
    (hfree : s.img.bit b = false) (hwr : Writes s s' (s.img.fresh b) [s.sb.bblock b, b]) :
    wp (logWrite ind ((s'.log.blk ind).put32 (4 * (bn - NDIRECT)) (BitVec.ofNat 32 b)))
      (fun _ s'' => Mapped s k (fileSlot bn) b s'' [s.sb.bblock b, b, ind]) (Full s 3) s' := by
  subst hind
  have hfs : fileSlot bn = bn + 1 := if_neg (by omega)
  obtain ⟨hle, hlt'⟩ := hw.alloc.range _ _ hind0
  have hne : (s.work k).slot (s.inode k).inum NDIRECT ≠ b := hw.alloc.ne_of_free hfree hlt hb0
  have hblk : s'.log.blk ((s.work k).slot (s.inode k).inum NDIRECT) =
      (s.work k).data ((s.work k).slot (s.inode k).inum NDIRECT) := by
    have hdata : s'.img.data ((s.work k).slot (s.inode k).inum NDIRECT) = s'.log.blk _ :=
      imgOf_data (hwr.sb ▸ hle) (hwr.sb ▸ hlt')
    rw [← hdata, hwr.img, Img.fresh, Img.setData_data_of_ne hne, Img.setBit_data, work_data]
  rw [hblk]
  refine (logWrite_data (hwr.sb ▸ hw.sb) (by rwa [hwr.outstanding]) (hwr.sb ▸ hle)
    (hwr.sb ▸ hlt')).mono ?_ fun e he => hwr.full he
  intro _ s'' hwr'
  rw [hwr.img] at hwr'
  have hall := hwr.trans hwr'
  have hwork : s''.work k = (s.work k).assign (s.inode k).inum (fileSlot bn) b := by
    rw [hall.work, hfs, Img.assign, if_neg (by omega), show bn + 1 - (NDIRECT + 1) = bn - NDIRECT by
      omega]
    rfl
  obtain ⟨hgrew, hslot⟩ := Img.grew_assign hw.alloc hfree hlt hw.sb.size hw.type_work
    (fileSlot_lt hmax) hempty fun _ => hind0
  refine ⟨Works.of_writes hall, ?_, ?_, fun h => absurd h hb0⟩
  · rwa [hwork]
  · rwa [hwork]

/-- Which blocks `bmap` logs for a new block `a` of inode `k`: this block, the indirect block and the
blocks of the free map for these. -/
def MapLog (s' : Fs) (k a x : ℕ) : Prop :=
  a ≠ 0 ∧ (x = a ∨ x = s'.sb.bblock a) ∨
  (s'.work k).slot (s'.inode k).inum NDIRECT ≠ 0 ∧
    (x = (s'.work k).slot (s'.inode k).inum NDIRECT ∨
      x = s'.sb.bblock ((s'.work k).slot (s'.inode k).inum NDIRECT))

/-- **`bmap`** gives the address of a block of a file, and adds the block if it is not there. -/
lemma bmap_spec (hw : Working s k) (htrans : 1 ≤ s.log.outstanding) (hmax : bn < MAXFILE) :
    wp (bmap k bn) (fun a s' => ∃ B, Mapped s k (fileSlot bn) a s' B ∧ B.length ≤ 5 ∧ ∀ x ∈ B,
      (s.work k).slot (s.inode k).inum (fileSlot bn) = 0 ∧ MapLog s' k a x) (Full s 5) s := by
  unfold bmap
  by_cases hd : bn < NDIRECT
  · have hfs : fileSlot bn = bn := if_pos hd
    rw [wp_ite_pos hd, hfs]
    refine (bmapAddr_spec hw htrans hd.le).mono ?_ fun e he => he.mono (by omega)
    rintro a s' ⟨B, hm, hlen, hB⟩
    refine ⟨B, hm, by omega, fun x hx => ⟨(hB x hx).1, Or.inl ?_⟩⟩
    rw [hm.sb]
    exact (hB x hx).2
  have hfs : fileSlot bn = bn + 1 := if_neg hd
  have hlt : bn - NDIRECT < NINDIRECT := by
    have : MAXFILE = NDIRECT + NINDIRECT := rfl
    omega
  rw [wp_ite_neg hd, wp_ite_pos hlt, wp_bind]
  refine (bmapAddr_spec hw htrans le_rfl).mono ?_ fun e he => he.mono (by omega)
  rintro ind s₁ ⟨B₁, hm₁, hlen₁, hB₁⟩
  have hw₁ := hw.next hm₁.toWorks hm₁.grew.toKeepsBlocks
  have hinum₁ := hm₁.inum
  have hind₁ := hm₁.slot
  -- an entry that is there now and was there before, or nothing was logged
  have hshape : ∀ a s', s'.sb = s₁.sb → (s'.work k).slot (s'.inode k).inum NDIRECT = ind →
      ∀ x ∈ B₁, (s.work k).slot (s.inode k).inum (fileSlot bn) = 0 ∧ MapLog s' k a x :=
    fun a s' hsb' hind' x hx => by
      obtain ⟨h0, hind0, hx'⟩ := hB₁ x hx
      refine ⟨Img.slot_indirect_zero (by omega) h0, Or.inr ?_⟩
      rw [hind', hsb', hm₁.sb]
      exact ⟨hind0, hx'⟩
  rw [← hinum₁] at hind₁
  by_cases h0 : ind = 0
  · rw [wp_ite_pos h0]
    refine ⟨B₁, ⟨hm₁.toWorks, hm₁.grew, ?_, fun _ => hm₁.nospace h0⟩, by omega, hshape 0 s₁ rfl hind₁⟩
    exact Img.slot_indirect_zero (by omega) (hm₁.slot.trans h0)
  rw [wp_ite_neg h0]
  have hget := hw₁.get_indirect (by omega) hmax (hind₁ ▸ h0)
  rw [hind₁] at hget
  simp only [wp_bind, wp_bread, hget]
  by_cases haddr : (s₁.work k).slot (s₁.inode k).inum (fileSlot bn) = 0
  · rw [wp_ite_neg (not_not.mpr haddr), wp_bind]
    have htrans₁ : 1 ≤ s₁.log.outstanding := by rwa [hm₁.outstanding]
    refine (balloc_spec hw₁.sb htrans₁ hw₁.alloc.head).mono ?_
      fun e he => (hm₁.full he).mono (by omega)
    rintro b s₂ (⟨rfl, rfl, hfull⟩ | ⟨hb0, hlt, hfree, hwr⟩)
    · rw [wp_ite_neg (not_not.mpr rfl), wp_pure]
      refine ⟨B₁, ⟨hm₁.toWorks, hm₁.grew, ?_, fun _ => ?_⟩, by omega, hshape 0 s₂ rfl hind₁⟩
      · rw [← hinum₁]
        exact haddr
      · rw [← hm₁.sb]
        exact hfull
    · rw [wp_ite_pos hb0]
      simp only [wp_bind, wp_bread, wp_pure]
      refine (logIndirect_spec hw₁ htrans₁ (by omega) hmax hind₁ h0 haddr hlt hb0 hfree hwr).mono ?_
        fun e he => (hm₁.full he).mono (by omega)
      intro _ s₃ hm₃
      have hind₃ : (s₃.work k).slot (s₃.inode k).inum NDIRECT = ind := by
        rw [hm₃.inum, hm₃.grew.slot _ _ (hind₁ ▸ h0)]
        exact hind₁
      refine ⟨_, ⟨hm₁.toWorks.trans hm₃.toWorks, ?_, ?_, fun h => absurd h hb0⟩, ?_, fun x hx => ?_⟩
      · have hg := hm₃.grew
        rw [hinum₁, hm₁.sb] at hg
        exact hm₁.grew.trans hg
      · rw [← hinum₁]
        exact hm₃.slot
      · rw [List.length_append]
        exact Nat.add_le_add hlen₁ le_rfl
      · rcases List.mem_append.mp hx with hx | hx
        · exact hshape b s₃ hm₃.sb hind₃ x hx
        · refine ⟨?_, ?_⟩
          · by_contra hne
            rw [hinum₁, hm₁.grew.slot _ _ hne] at haddr
            exact hne haddr
          · rw [MapLog, hind₃, hm₃.sb]
            simp only [List.mem_cons, List.not_mem_nil, or_false] at hx
            rcases hx with rfl | rfl | rfl
            · exact Or.inl ⟨hb0, Or.inr rfl⟩
            · exact Or.inl ⟨hb0, Or.inl rfl⟩
            · exact Or.inr ⟨h0, Or.inl rfl⟩
  · rw [wp_ite_pos haddr]
    refine ⟨B₁, ⟨hm₁.toWorks, hm₁.grew, ?_, fun h => absurd h haddr⟩, by omega, hshape _ s₁ rfl hind₁⟩
    rw [← hinum₁]

/-! ## Dropping all blocks -/

/-- The owners without the slots `P` of `i`. -/
def dropSlots (f : ℕ → ℕ → ℕ) (i : ℕ) (P : ℕ → Prop) [DecidablePred P] : ℕ → ℕ → ℕ :=
  fun j m => if j = i ∧ P m then 0 else f j m

/-- Blocks have been freed; `f` is who still owns blocks. -/
structure Freed (s s' : Fs) (f : ℕ → ℕ → ℕ) : Prop extends Logs s s' s.sb.bmapBlocks where
  dino : s'.img.dino = s.img.dino
  data : s'.img.data = s.img.data
  alloc : Alloc s.sb f s'.img.bit

lemma Freed.onInode (h : Freed s s' f) (ip : ℕ) (g : Inode → Inode) :
    Freed s (s'.onInode ip g) f := ⟨h.toLogs.onInode ip g, h.dino, h.data, h.alloc⟩

/-- The block in a slot is freed. -/
lemma bfree_slot (hsb : s.sb.Ok)
    (htrans : 1 ≤ s.log.outstanding) (hnodup : s.log.lh.Nodup) (h : Freed s s' f) (h0 : f i n ≠ 0) :
    wp (bfree (f i n)) (fun _ s'' => Freed s s'' (setSlot f i n 0) ∧ s''.inode = s'.inode)
      (Full s (s.sb.bmapBlocks.length + 1)) s' := by
  obtain ⟨hbit, halloc⟩ := h.alloc.free rfl h0
  have hlt := (h.alloc.range i n h0).2
  refine (bfree_spec (h.sb ▸ hsb) (by rwa [h.outstanding]) (h.sb ▸ hlt) hbit).mono ?_
    fun e he => h.full he
  intro _ s'' hwr
  refine ⟨⟨?_, ?_, ?_, ?_⟩, hwr.inode⟩
  · refine (h.toLogs.trans hwr.toLogs).mono hnodup ?_ hsb.home_bmapBlocks
    intro b hb
    rcases List.mem_append.mp hb with hb | hb
    · exact hb
    · rw [List.mem_singleton.mp hb, h.sb]
      exact Superblock.bblock_mem hlt
  · rw [hwr.img]
    exact h.dino
  · rw [hwr.img]
    exact h.data
  · rw [hwr.img]
    exact halloc

lemma dropSlots_succ (f : ℕ → ℕ → ℕ) (i n : ℕ) (P Q : ℕ → Prop) [DecidablePred P] [DecidablePred Q]
    (hPQ : ∀ m, Q m ↔ P m ∨ m = n) : setSlot (dropSlots f i P) i n 0 = dropSlots f i Q := by
  funext j m
  unfold setSlot dropSlots
  have := hPQ m
  split_ifs <;> first | rfl | tauto

lemma dropSlots_of_zero (P Q : ℕ → Prop) [DecidablePred P]
    [DecidablePred Q] (hPQ : ∀ m, Q m ↔ P m ∨ m = n) (h0 : dropSlots f i P i n = 0) :
    dropSlots f i P = dropSlots f i Q := by
  rw [← dropSlots_succ f i n P Q hPQ]
  funext j m
  unfold setSlot
  split
  · next hjm =>
    rw [hjm.1, hjm.2]
    exact h0
  · rfl

/-- The addresses below `j` are cleared. -/
def Dinode.dropAddrs (d : Dinode) (j : ℕ) : Dinode :=
  { d with addrs := fun n => if n < j then 0 else d.addrs n }

lemma Dinode.dropAddrs_zero (d : Dinode) : d.dropAddrs 0 = d := by
  simp [dropAddrs]

lemma Dinode.dropAddrs_all (d : Dinode) :
    d.dropAddrs (NDIRECT + 1) = { d with addrs := fun _ => 0 } := by
  rw [dropAddrs]
  congr 1
  funext n
  exact if_pos n.isLt

lemma Dinode.addr_dropAddrs (h : j ≤ n) : (d.dropAddrs j).addr n = d.addr n := by
  simp only [addr, dropAddrs, Nat.not_lt.mpr h, if_false]

lemma Dinode.setAddr_dropAddrs (d : Dinode) (j : ℕ) :
    (d.dropAddrs j).setAddr j 0 = d.dropAddrs (j + 1) := by
  unfold setAddr dropAddrs
  congr 1
  funext n
  dsimp only
  split_ifs <;> first | rfl | omega

lemma Dinode.dropAddrs_succ (hj : j ≤ NDIRECT) (h : d.addr j = 0) :
    d.dropAddrs (j + 1) = d.dropAddrs j := by
  unfold dropAddrs
  congr 1
  funext n
  have hd : (n : ℕ) = j → d.addrs n = 0 := fun hn => by
    subst hn
    rw [addr, dif_pos n.isLt] at h
    exact BitVec.eq_of_toNat_eq h
  split_ifs <;> first | rfl | omega | exact (hd (by omega)).symm

section Trunc

variable {s : Fs} {k : ℕ} (hw : Working s k) (htrans : 1 ≤ s.log.outstanding)
  (hnodup : s.log.lh.Nodup)

include hw htrans hnodup

/-- The loop over the direct blocks. -/
lemma itruncDirect_spec (n i : ℕ) (hn : i + n = NDIRECT) (s' : Fs)
    (hf : Freed s s' (dropSlots (s.work k).slot (s.inode k).inum (· < i)))
    (hinode : s'.inode = update s.inode k
      { s.inode k with toDinode := (s.inode k).toDinode.dropAddrs i }) :
    wp (itruncDirect k n i) (fun _ s'' =>
      Freed s s'' (dropSlots (s.work k).slot (s.inode k).inum (· < NDIRECT)) ∧
      s''.inode = update s.inode k
        { s.inode k with toDinode := (s.inode k).toDinode.dropAddrs NDIRECT })
      (Full s (s.sb.bmapBlocks.length + 1)) s' := by
  induction n generalizing i s' with
  | zero =>
    obtain rfl : i = NDIRECT := by omega
    exact ⟨hf, hinode⟩
  | succ n ih =>
    have hslot : dropSlots (s.work k).slot (s.inode k).inum (· < i) (s.inode k).inum i =
        (s.inode k).addr i := by
      rw [dropSlots, if_neg (by omega), hw.slot_addr (by omega)]
    have haddr : (s'.inode k).addr i = (s.inode k).addr i := by
      rw [hinode, update_self]
      exact Dinode.addr_dropAddrs le_rfl
    have hiff : ∀ m, m < i + 1 ↔ m < i ∨ m = i := fun m => by omega
    unfold itruncDirect
    simp only [wp_bind, wp_get, haddr]
    by_cases h0 : (s.inode k).addr i = 0
    · rw [wp_ite_neg (not_not.mpr h0)]
      refine ih (i + 1) (by omega) s' ?_ ?_
      · rwa [dropSlots_of_zero (· < i) (· < i + 1) hiff (hslot.trans h0)] at hf
      · rwa [Dinode.dropAddrs_succ (by omega) h0]
    · rw [wp_ite_pos h0]
      simp only [wp_bind, ← hslot]
      refine (bfree_slot hw.sb htrans hnodup hf (hslot ▸ h0)).imp ?_
      rintro - s₁ ⟨hf₁, hinode₁⟩
      rw [setAddr, wp_setInode]
      refine ih (i + 1) (by omega) _ ?_ ?_
      · rw [dropSlots_succ _ _ _ (· < i) (· < i + 1) hiff] at hf₁
        exact hf₁.onInode _ _
      · rw [onInode_inode, hinode₁, hinode, update_idem, update_self,
          ← Dinode.setAddr_dropAddrs]

/-- The slots that are dropped after `j` entries of the indirect block. -/
abbrev Dropped (j m : ℕ) : Prop := m < NDIRECT ∨ NDIRECT + 1 ≤ m ∧ m < NDIRECT + 1 + j

/-- The loop over the entries of the indirect block. -/
lemma itruncIndirect_spec (hind : (s.work k).slot (s.inode k).inum NDIRECT ≠ 0) (n j : ℕ)
    (hn : j + n = NINDIRECT) (s' : Fs)
    (hf : Freed s s' (dropSlots (s.work k).slot (s.inode k).inum (Dropped j))) :
    wp (itruncIndirect ((s.work k).data ((s.work k).slot (s.inode k).inum NDIRECT)) n j)
      (fun _ s'' => Freed s s'' (dropSlots (s.work k).slot (s.inode k).inum (Dropped NINDIRECT)) ∧
        s''.inode = s'.inode)
      (Full s (s.sb.bmapBlocks.length + 1)) s' := by
  induction n generalizing j s' with
  | zero =>
    obtain rfl : j = NINDIRECT := by omega
    exact ⟨hf, rfl⟩
  | succ n ih =>
    have hget : (((s.work k).data ((s.work k).slot (s.inode k).inum NDIRECT)).get32 (4 * j)).toNat =
        dropSlots (s.work k).slot (s.inode k).inum (Dropped j) (s.inode k).inum (NDIRECT + 1 + j) := by
      have hnslot : NSLOT = NDIRECT + 1 + NINDIRECT := rfl
      rw [dropSlots, if_neg (by unfold Dropped; omega),
        Img.slot_indirect (n := NDIRECT + 1 + j) hw.type_work (by omega) (by omega) hind,
        Nat.add_sub_cancel_left]
    have hiff : ∀ m, Dropped (j + 1) m ↔ Dropped j m ∨ m = NDIRECT + 1 + j := fun m => by
      unfold Dropped
      omega
    unfold itruncIndirect
    simp only [hget]
    by_cases h0 : dropSlots (s.work k).slot (s.inode k).inum (Dropped j) (s.inode k).inum
        (NDIRECT + 1 + j) = 0
    · simp only [h0, ne_eq, not_true_eq_false, if_false]
      refine ih (j + 1) (by omega) s' ?_
      rwa [dropSlots_of_zero (Dropped j) (Dropped (j + 1)) hiff h0] at hf
    · simp only [ne_eq, h0, not_false_eq_true, if_true, wp_bind]
      refine (bfree_slot hw.sb htrans hnodup hf h0).imp ?_
      rintro - s₁ ⟨hf₁, hinode₁⟩
      rw [dropSlots_succ _ _ _ (Dropped j) (Dropped (j + 1)) hiff] at hf₁
      exact (ih (j + 1) (by omega) s₁ hf₁).imp fun _ s₂ h₂ => ⟨h₂.1, h₂.2.trans hinode₁⟩

end Trunc

/-- Inode `k` has been truncated: its blocks are free, and nothing else has changed. -/
structure Truncated (s : Fs) (k : ℕ) (s' : Fs) : Prop extends
    Works s s' k (s.sb.bmapBlocks ++ [s.sb.iblock (s.inode k).inum]) where
  copy : (s'.inode k).toDinode = { (s.inode k).toDinode with size := 0, addrs := fun _ => 0 }
  dino : s'.img.dino = update s.img.dino (s.inode k).inum (s'.inode k).toDinode
  data : s'.img.data = s.img.data
  alloc : Alloc s.sb (dropSlots (s.work k).slot (s.inode k).inum (· < NSLOT)) s'.img.bit

section Trunc

variable {s : Fs} {k : ℕ} (hw : Working s k) (htrans : 1 ≤ s.log.outstanding)
  (hnodup : s.log.lh.Nodup)

include hw htrans

/-- The end of `itrunc`, when all blocks have been freed. -/
lemma itrunc_end {s' : Fs}
    (hf : Freed s s' (dropSlots (s.work k).slot (s.inode k).inum (· < NSLOT)))
    (hinode : s'.inode = update s.inode k
      { s.inode k with toDinode := (s.inode k).toDinode.dropAddrs (NDIRECT + 1) }) :
    wp (do
      setInode k fun x => { x with size := 0 }
      iupdate k) (fun _ s'' => Truncated s k s'') (Full s (s.sb.bmapBlocks.length + 1)) s' := by
  rw [wp_bind, wp_setInode]
  have hk : (s'.onInode k fun x => { x with size := 0 }).inode k = { s.inode k with
      toDinode := { (s.inode k).toDinode with size := 0, addrs := fun _ => 0 } } := by
    rw [onInode_self, hinode, update_self, Dinode.dropAddrs_all]
  have hothers : ∀ j ≠ k, (s'.onInode k fun x => { x with size := 0 }).inode j = s.inode j :=
    fun j hj => by rw [onInode_of_ne hj, hinode, update_of_ne hj]
  have hlogs := hf.toLogs.onInode k fun x => { x with size := 0 }
  have hinum : ((s'.onInode k fun x => { x with size := 0 }).inode k).inum = (s.inode k).inum := by
    rw [hk]
  refine (iupdate_spec (hf.sb ▸ hw.sb) (by rwa [hlogs.outstanding]) k ?_).mono ?_
    fun e he => hlogs.full he
  · rw [hinum, onInode_sb, hf.sb]
    exact hw.inum
  intro _ s'' hwr
  rw [hinum, onInode_img, onInode_sb, hf.sb] at hwr
  have hk'' : s''.inode k = { s.inode k with
      toDinode := { (s.inode k).toDinode with size := 0, addrs := fun _ => 0 } } := by
    rw [hwr.inode, hk]
  refine ⟨⟨hlogs.trans hwr.toLogs, fun j hj => ?_, ?_⟩, ?_, ?_, ?_, ?_⟩
  · rw [hwr.inode, hothers j hj]
  · rw [hk'']
  · rw [hk'']
  · rw [hwr.img, hk'', ← hf.dino, hk]
    rfl
  · rw [hwr.img]
    exact hf.data
  · rw [hwr.img]
    exact hf.alloc

include hnodup

/-- **`itrunc`** frees all blocks of an inode. -/
lemma itrunc_spec : wp (itrunc k) (fun _ s' => Truncated s k s')
    (Full s (s.sb.bmapBlocks.length + 1)) s := by
  unfold itrunc
  rw [wp_bind]
  refine (itruncDirect_spec hw htrans hnodup NDIRECT 0 rfl s ?_ ?_).imp ?_
  · refine ⟨(Logs.refl s).mono hnodup (List.nil_subset _) hw.sb.home_bmapBlocks, rfl, rfl, ?_⟩
    exact hw.alloc.congr fun j m => if_neg (by omega)
  · simp [Dinode.dropAddrs_zero]
  rintro - s₁ ⟨hf₁, hinode₁⟩
  simp only [wp_bind, wp_get]
  have haddr : (s₁.inode k).addr NDIRECT = (s.inode k).addr NDIRECT := by
    rw [hinode₁, update_self]
    exact Dinode.addr_dropAddrs le_rfl
  have hslot := hw.slot_addr le_rfl
  rw [haddr]
  by_cases h0 : (s.inode k).addr NDIRECT = 0
  · -- without an indirect block there are no entries
    rw [wp_ite_neg (not_not.mpr h0)]
    refine itrunc_end hw htrans ⟨hf₁.toLogs, hf₁.dino, hf₁.data, ?_⟩ ?_
    · refine hf₁.alloc.congr fun j m => ?_
      unfold dropSlots
      by_cases hm : j = (s.inode k).inum ∧ NDIRECT ≤ m ∧ m < NSLOT
      · obtain ⟨rfl, hm, hm'⟩ := hm
        rw [if_pos ⟨rfl, hm'⟩, if_neg (by omega)]
        rcases eq_or_lt_of_le hm with rfl | hm
        · exact (hslot.trans h0).symm
        · exact (Img.slot_indirect_zero hm (hslot.trans h0)).symm
      · have hlt : NDIRECT < NSLOT := by decide
        by_cases hj : j = (s.inode k).inum ∧ m < NDIRECT
        · rw [if_pos hj, if_pos ⟨hj.1, by omega⟩]
        · rw [if_neg hj, if_neg (by omega)]
    · rwa [Dinode.dropAddrs_succ le_rfl h0]
  · rw [wp_ite_pos h0, ← hslot]
    rw [← hslot] at h0
    have hblk : s₁.log.blk ((s.work k).slot (s.inode k).inum NDIRECT) =
        (s.work k).data ((s.work k).slot (s.inode k).inum NDIRECT) := by
      obtain ⟨hle, hlt⟩ := hw.alloc.range _ _ h0
      rw [work_data, ← hf₁.data]
      exact (imgOf_data (hf₁.sb ▸ hle) (hf₁.sb ▸ hlt)).symm
    simp only [wp_bind, wp_bread, hblk]
    refine (itruncIndirect_spec hw htrans hnodup h0 NINDIRECT 0 (Nat.zero_add _) s₁ ?_).imp ?_
    · refine ⟨hf₁.toLogs, hf₁.dino, hf₁.data, hf₁.alloc.congr fun j m => ?_⟩
      unfold dropSlots
      congr 1
      unfold Dropped
      refine propext ⟨fun h => ⟨h.1, by omega⟩, fun h => ⟨h.1, by omega⟩⟩
    rintro - s₂ ⟨hf₂, hinode₂⟩
    have hdrop : dropSlots (s.work k).slot (s.inode k).inum (Dropped NINDIRECT) (s.inode k).inum
        NDIRECT = (s.work k).slot (s.inode k).inum NDIRECT :=
      if_neg (by unfold Dropped; omega)
    have hiff : ∀ m, m < NSLOT ↔ Dropped NINDIRECT m ∨ m = NDIRECT := fun m => by
      have hnslot : NSLOT = NDIRECT + 1 + NINDIRECT := rfl
      unfold Dropped
      omega
    rw [← hdrop]
    refine (bfree_slot hw.sb htrans hnodup hf₂ (hdrop ▸ h0)).imp ?_
    rintro - s₃ ⟨hf₃, hinode₃⟩
    rw [setAddr, wp_setInode]
    refine itrunc_end hw htrans ?_ ?_
    · rw [dropSlots_succ _ _ _ (Dropped NINDIRECT) (· < NSLOT) hiff] at hf₃
      exact hf₃.onInode _ _
    · rw [onInode_inode, hinode₃, hinode₂, hinode₁, update_idem, update_self,
        ← Dinode.setAddr_dropAddrs]

end Trunc

end Xv6
