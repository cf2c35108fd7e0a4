import Xv6.Fs.Basic
import Xv6.Fs.Image
import Xv6.Lib.Run

/-!
# Blocks and what they mean

The image of a file system state is read off its blocks as `kernel/fs.c` does it.  Each function that
writes a block changes one part of the image: a data block, a bit of the free map or an inode.

`Logs s s' B` relates the states around code in a transaction: the blocks `B` may have changed, and
they have been added to the transaction.  The only fault of such code is that the transaction gets too
big, `Full`.
-/

namespace Xv6

open Function List

/-! ## The layout -/

/-- The parts of the disk are where they should be. -/
structure Superblock.Ok (sb : Superblock) : Prop where
  log : sb.logstart + LOGBLOCKS < sb.inodestart
  inodes : ∀ i < sb.ninodes, sb.iblock i < sb.bmapstart
  map : sb.bmapstart < sb.datastart
  bitmap : ∀ b < sb.size, sb.bblock b < sb.datastart
  size : sb.size ≤ 2 ^ 32
  ninodes : sb.ninodes ≤ 2 ^ 16
  root : ROOTINO < sb.ninodes

/-- The blocks that are written in transactions. -/
def Superblock.Home (sb : Superblock) (b : ℕ) : Prop := sb.inodestart ≤ b ∧ b < sb.size

lemma Superblock.datastart_le (sb : Superblock) : sb.datastart ≤ sb.size := Nat.sub_le ..

/-- What the blocks of a disk mean. -/
def imgOf (sb : Superblock) (blk : ℕ → Block) : Img where
  dino i := if i < sb.ninodes then Dinode.read (blk (sb.iblock i)) (inodeOffset i) else {}
  bit b := decide (b < sb.size) && (blk (sb.bblock b)).bit (b % BPB)
  data b := if sb.datastart ≤ b ∧ b < sb.size then blk b else fun _ => 0

def Fs.img (s : Fs) : Img := imgOf s.sb s.log.blk

section Image

variable {sb : Superblock} {blk : ℕ → Block} {i b : ℕ} {x : Block}

lemma imgOf_dino (h : i < sb.ninodes) :
    (imgOf sb blk).dino i = Dinode.read (blk (sb.iblock i)) (inodeOffset i) := if_pos h

lemma imgOf_bit (h : b < sb.size) : (imgOf sb blk).bit b = (blk (sb.bblock b)).bit (b % BPB) := by
  simp only [imgOf, h, decide_true, Bool.true_and]

lemma imgOf_data (h : sb.datastart ≤ b) (h' : b < sb.size) : (imgOf sb blk).data b = blk b :=
  if_pos ⟨h, h'⟩

lemma inodeOffset_disjoint {i j : ℕ} (hij : i ≠ j) (hb : sb.iblock i = sb.iblock j) :
    inodeOffset j + 64 ≤ inodeOffset i ∨ inodeOffset i + 64 ≤ inodeOffset j := by
  have hipb : IPB = 16 := rfl
  unfold Superblock.iblock at hb
  unfold inodeOffset
  rw [hipb] at hb ⊢
  omega

variable (hsb : sb.Ok)

include hsb

lemma Superblock.Ok.iblock_lt (hi : i < sb.ninodes) (b : ℕ) :
    sb.iblock i < sb.bblock b := lt_of_lt_of_le (hsb.inodes i hi) (Nat.le_add_left ..)

/-- Writing a data block. -/
lemma imgOf_update_data (h : sb.datastart ≤ b) (h' : b < sb.size) :
    imgOf sb (update blk b x) = (imgOf sb blk).setData b x := by
  have hmap := hsb.bitmap b h'
  ext1
  · funext i
    simp only [imgOf, Img.setData_dino]
    by_cases hi : i < sb.ninodes
    · have := hsb.iblock_lt hi b
      rw [update_of_ne (by omega)]
    · rw [if_neg hi, if_neg hi]
  · funext c
    simp only [imgOf, Img.setData_bit]
    by_cases hc : c < sb.size
    · have := hsb.bitmap c hc
      rw [update_of_ne (by omega)]
    · simp only [hc, decide_false, Bool.false_and]
  · funext c
    by_cases hcb : c = b
    · subst hcb
      rw [Img.setData_data_self, imgOf_data h h', update_self]
    · rw [Img.setData_data_of_ne hcb]
      simp only [imgOf, update_of_ne hcb]

/-- Writing a block of the free map so that one bit changes. -/
lemma imgOf_update_bit {v : Bool} (hb : b < sb.size) (hx : ∀ j < BPB,
      x.bit j = if j = b % BPB then v else (blk (sb.bblock b)).bit j) :
    imgOf sb (update blk (sb.bblock b) x) = (imgOf sb blk).setBit b v := by
  have hmap := hsb.bitmap b hb
  ext1
  · funext i
    simp only [imgOf, Img.setBit_dino]
    by_cases hi : i < sb.ninodes
    · have := hsb.iblock_lt hi b
      rw [update_of_ne (by omega)]
    · rw [if_neg hi, if_neg hi]
  · funext c
    by_cases hc : c < sb.size
    · rw [imgOf_bit hc]
      by_cases hbc : sb.bblock c = sb.bblock b
      · rw [hbc, update_self, hx _ (Nat.mod_lt _ (by decide))]
        by_cases hcb : c = b
        · rw [hcb, if_pos rfl, Img.setBit_self]
        · have hmod : c % BPB ≠ b % BPB := by
            unfold Superblock.bblock at hbc
            have hc' := Nat.div_add_mod c BPB
            have hb' := Nat.div_add_mod b BPB
            have hdiv : c / BPB = b / BPB := by omega
            rw [hdiv] at hc'
            omega
          rw [if_neg hmod, Img.setBit_of_ne hcb, imgOf_bit hc, hbc]
      · have hcb : c ≠ b := fun h => hbc (by rw [h])
        rw [update_of_ne hbc, Img.setBit_of_ne hcb, imgOf_bit hc]
    · have hcb : c ≠ b := by omega
      rw [Img.setBit_of_ne hcb]
      simp only [imgOf, hc, decide_false, Bool.false_and]
  · funext c
    simp only [imgOf, Img.setBit_data]
    by_cases hc : sb.datastart ≤ c ∧ c < sb.size
    · rw [update_of_ne (by omega)]
    · rw [if_neg hc, if_neg hc]

/-- Writing an inode block so that one inode changes. -/
lemma imgOf_update_dino {d : Dinode} (hi : i < sb.ninodes) (hx : Dinode.read x (inodeOffset i) = d)
    (hother : ∀ j, inodeOffset i + 64 ≤ j ∨ j < inodeOffset i → x j = blk (sb.iblock i) j) :
    imgOf sb (update blk (sb.iblock i) x) = (imgOf sb blk).setDino i d := by
  have hlt := hsb.iblock_lt hi
  ext1
  · funext j
    by_cases hj : j < sb.ninodes
    · rw [imgOf_dino hj]
      by_cases hij : j = i
      · rw [hij, update_self, Img.setDino_self, hx]
      · rw [Img.setDino_of_ne hij, imgOf_dino hj]
        by_cases hb : sb.iblock j = sb.iblock i
        · rw [hb, update_self]
          have hdis := inodeOffset_disjoint hij hb
          exact Dinode.read_congr fun o _ _ => hother o (by omega)
        · rw [update_of_ne hb]
    · have hij : j ≠ i := by omega
      rw [Img.setDino_of_ne hij]
      simp only [imgOf, hj, if_false]
  · funext c
    simp only [imgOf, Img.setDino_bit]
    by_cases hc : c < sb.size
    · have := hlt c
      rw [update_of_ne (by omega)]
    · simp only [hc, decide_false, Bool.false_and]
  · funext c
    simp only [imgOf, Img.setDino_data]
    by_cases hc : sb.datastart ≤ c ∧ c < sb.size
    · have := hlt c
      have := hsb.bitmap c hc.2
      rw [update_of_ne (by omega)]
    · rw [if_neg hc, if_neg hc]

end Image

/-! ## Code in a transaction -/

/-- The transaction of `s` gets too big with `n` more blocks. -/
def Full (s : Fs) (n : ℕ) (e : String) : Prop :=
  e = "too big a transaction" ∧ LOGBLOCKS < s.log.lh.length + n

/-- Code in a transaction may have changed the blocks `B` and has logged them. -/
structure Logs (s s' : Fs) (B : List ℕ) : Prop where
  sb : s'.sb = s.sb
  log : s'.log = { s.log with blk := s'.log.blk, pins := s'.log.pins, lh := s'.log.lh }
  lh : ∀ b ∈ s'.log.lh, b ∈ s.log.lh ∨ b ∈ B
  keep : ∀ b ∈ s.log.lh, b ∈ s'.log.lh
  nodup : s.log.lh.Nodup → s'.log.lh.Nodup
  length : s'.log.lh.length ≤ s.log.lh.length + B.length
  bound : s.log.lh.length ≤ LOGBLOCKS → s'.log.lh.length ≤ LOGBLOCKS
  blk : ∀ b ∉ s'.log.lh, s'.log.blk b = s.log.blk b
  home : ∀ b ∈ B, s.sb.Home b

namespace Logs

variable {s s' s'' : Fs} {B B' : List ℕ}

lemma refl (s : Fs) : Logs s s [] :=
  ⟨rfl, rfl, fun _ => Or.inl, fun _ => id, id, le_rfl, id, fun _ _ => rfl, by simp⟩

/-- The inode table is not part of it. -/
lemma of_eq (hlog : s'.log = s.log) (hsb : s'.sb = s.sb) : Logs s s' [] := by
  refine ⟨hsb, ?_, ?_, ?_, ?_, ?_, ?_, ?_, by simp⟩ <;> rw [hlog]
  · exact fun _ => Or.inl
  · exact fun _ => id
  · exact id
  · exact le_rfl
  · exact id
  · exact fun _ _ => rfl

lemma trans (h : Logs s s' B) (h' : Logs s' s'' B') : Logs s s'' (B ++ B') where
  sb := h'.sb.trans h.sb
  log := by rw [h'.log, h.log]
  lh b hb := by
    rw [mem_append, ← or_assoc]
    exact (h'.lh b hb).imp_left (h.lh b)
  keep b hb := h'.keep b (h.keep b hb)
  nodup hn := h'.nodup (h.nodup hn)
  length := by
    have := h.length
    have := h'.length
    rw [length_append]
    omega
  bound hs := h'.bound (h.bound hs)
  blk b hb := by rw [h'.blk b hb, h.blk b fun hb' => hb (h'.keep b hb')]
  home b hb := by
    rcases mem_append.mp hb with hb | hb
    · exact h.home b hb
    · rw [← h.sb]
      exact h'.home b hb

/-- More blocks may be given than are logged. -/
lemma mono (h : Logs s s' B) (hnodup : s.log.lh.Nodup) (hsub : B ⊆ B')
    (hhome : ∀ b ∈ B', s.sb.Home b) : Logs s s' B' where
  sb := h.sb
  log := h.log
  lh b hb := (h.lh b hb).imp_right fun hb => hsub hb
  keep := h.keep
  nodup := h.nodup
  length := by
    have hsub' : s'.log.lh ⊆ s.log.lh ++ B' := fun b hb =>
      mem_append.mpr ((h.lh b hb).imp_right fun hb => hsub hb)
    rw [← length_append]
    exact (Nodup.subperm (h.nodup hnodup) hsub').length_le
  bound := h.bound
  blk := h.blk
  home := hhome

lemma outstanding (h : Logs s s' B) : s'.log.outstanding = s.log.outstanding := by rw [h.log]

lemma full {n : ℕ} {e : String} (h : Logs s s' B) (he : Full s' n e) : Full s (B.length + n) e := by
  have := h.length
  have := he.2
  exact ⟨he.1, by omega⟩

end Logs

variable {s s' : Fs} {b : ℕ} {E : String → Prop} {sb : Superblock}

lemma Full.mono {n m : ℕ} {e : String} (h : Full s n e) (hnm : n ≤ m) : Full s m e :=
  ⟨h.1, lt_of_lt_of_le h.2 (by omega)⟩

/-- The state after block `b` has been changed to `x` and logged. -/
def Fs.wrote (s : Fs) (b : ℕ) (x : Block) : Fs :=
  { s with log := { s.log with blk := update s.log.blk b x }.addBlock b }

lemma LogState.addBlock_blk (l : LogState) (b : ℕ) : (l.addBlock b).blk = l.blk := by
  unfold addBlock
  split <;> rfl

lemma Fs.wrote_img (s : Fs) (b : ℕ) (x : Block) :
    (s.wrote b x).img = imgOf s.sb (update s.log.blk b x) := by
  rw [img, wrote, LogState.addBlock_blk]

lemma Fs.wrote_logs (s : Fs) (b : ℕ) (x : Block) (hb : s.sb.Home b)
    (hroom : s.log.lh.length < LOGBLOCKS) : Logs s (s.wrote b x) [b] := by
  unfold wrote LogState.addBlock
  split
  · next hmem =>
    refine ⟨rfl, rfl, fun _ => Or.inl, fun _ => id, id, Nat.le_succ _, id, fun c hc => ?_,
      by simpa using hb⟩
    refine update_of_ne ?_ ..
    rintro rfl
    exact hc hmem
  · next hmem =>
    refine ⟨rfl, rfl, fun c hc => mem_append.mp hc, fun c hc => mem_append_left _ hc,
      fun hn => ?_, by simp, fun _ => ?_, fun c hc => ?_, by simpa using hb⟩
    · exact nodup_append.mpr ⟨hn, by simp, fun a ha c hc => by
        rintro rfl
        exact hmem (mem_singleton.mp hc ▸ ha)⟩
    · rw [length_append, length_singleton]
      exact hroom
    · refine update_of_ne ?_ ..
      rintro rfl
      exact hc (mem_append_right _ (mem_singleton.mpr rfl))

@[simp] lemma wp_bread {Q : Block → Fs → Prop} :
    wp (bread b) Q E s ↔ Q (s.log.blk b) s := Iff.rfl

/-- The state after a change to an entry of the inode table. -/
def Fs.onInode (s : Fs) (ip : ℕ) (f : Inode → Inode) : Fs :=
  { s with inode := update s.inode ip (f (s.inode ip)) }

lemma Logs.onInode {B : List ℕ} (h : Logs s s' B) (ip : ℕ) (f : Inode → Inode) :
    Logs s (s'.onInode ip f) B :=
  append_nil B ▸ h.trans (Logs.of_eq rfl rfl)

section OnInode

variable {s : Fs} {ip j : ℕ} {f : Inode → Inode}

lemma onInode_inode : (s.onInode ip f).inode = update s.inode ip (f (s.inode ip)) := rfl

@[simp] lemma onInode_self : (s.onInode ip f).inode ip = f (s.inode ip) := update_self ..

lemma onInode_of_ne (h : j ≠ ip) : (s.onInode ip f).inode j = s.inode j :=
  update_of_ne h ..

@[simp] lemma onInode_img : (s.onInode ip f).img = s.img := rfl

@[simp] lemma onInode_sb : (s.onInode ip f).sb = s.sb := rfl

@[simp] lemma onInode_log : (s.onInode ip f).log = s.log := rfl

end OnInode

@[simp] lemma wp_setInode {ip : ℕ} {f : Inode → Inode} {Q : Unit → Fs → Prop}
    : wp (setInode ip f) Q E s ↔ Q () (s.onInode ip f) := Iff.rfl

lemma logWrite_spec (b : ℕ) (x : Block) (htrans : 1 ≤ s.log.outstanding) :
    wp (logWrite b x) (fun _ s' => s' = s.wrote b x ∧ s.log.lh.length < LOGBLOCKS) (Full s 1) s := by
  unfold logWrite
  simp only [wp_bind, wp_modify, wp_get, wp_ite, wp_throw]
  exact ⟨fun h => ⟨rfl, by omega⟩, fun h => ⟨fun h' => absurd h' (by omega), fun _ =>
    ⟨rfl, by omega⟩⟩⟩

/-- Code in a transaction has turned the image into `g`, and logged the blocks `B`. -/
structure Writes (s s' : Fs) (g : Img) (B : List ℕ) : Prop extends Logs s s' B where
  img : s'.img = g
  inode : s'.inode = s.inode

lemma Writes.trans {s'' : Fs} {g g' : Img} {B B' : List ℕ} (h : Writes s s' g B)
    (h' : Writes s' s'' g' B') : Writes s s'' g' (B ++ B') :=
  ⟨h.toLogs.trans h'.toLogs, h'.img, h'.inode.trans h.inode⟩

section Write

variable {s : Fs} {b i : ℕ} {x : Block} (hsb : s.sb.Ok) (htrans : 1 ≤ s.log.outstanding)

include hsb

variable {sb : Superblock}

omit hsb in
lemma Superblock.Ok.inodestart_lt (hsb : sb.Ok) :
    sb.inodestart < sb.bmapstart :=
  lt_of_le_of_lt (Nat.le_add_left ..) (hsb.inodes _ hsb.root)

omit hsb in
lemma Superblock.Ok.home_data (hsb : sb.Ok) {b : ℕ} (hb : sb.datastart ≤ b)
    (hlt : b < sb.size) : sb.Home b := by
  have := hsb.inodestart_lt
  have := hsb.map
  exact ⟨by omega, hlt⟩

omit hsb in
lemma Superblock.Ok.home_bblock (hsb : sb.Ok) {b : ℕ} (hlt : b < sb.size) :
    sb.Home (sb.bblock b) := by
  have := hsb.inodestart_lt
  have := hsb.bitmap b hlt
  have := sb.datastart_le
  have : sb.bmapstart ≤ sb.bblock b := Nat.le_add_left ..
  exact ⟨by omega, by omega⟩

omit hsb in
lemma Superblock.Ok.home_iblock (hsb : sb.Ok) {i : ℕ} (hi : i < sb.ninodes) :
    sb.Home (sb.iblock i) := by
  have := hsb.inodes i hi
  have := hsb.map
  have := sb.datastart_le
  exact ⟨Nat.le_add_left .., by omega⟩

include htrans

lemma logWrite_data (hb : s.sb.datastart ≤ b) (hlt : b < s.sb.size) :
    wp (logWrite b x) (fun _ s' => Writes s s' (s.img.setData b x) [b]) (Full s 1) s := by
  refine (logWrite_spec b x htrans).imp ?_
  rintro - s' ⟨rfl, hroom⟩
  refine ⟨s.wrote_logs b x (hsb.home_data hb hlt) hroom, ?_, rfl⟩
  rw [Fs.wrote_img, imgOf_update_data hsb hb hlt]
  rfl

lemma logWrite_bit {v : Bool} (hlt : b < s.sb.size) (hx : ∀ j < BPB,
      x.bit j = if j = b % BPB then v else (s.log.blk (s.sb.bblock b)).bit j) :
    wp (logWrite (s.sb.bblock b) x)
      (fun _ s' => Writes s s' (s.img.setBit b v) [s.sb.bblock b]) (Full s 1) s := by
  refine (logWrite_spec _ x htrans).imp ?_
  rintro - s' ⟨rfl, hroom⟩
  refine ⟨s.wrote_logs _ x (hsb.home_bblock hlt) hroom, ?_, rfl⟩
  rw [Fs.wrote_img, imgOf_update_bit hsb hlt hx]
  rfl

lemma logWrite_dino {d : Dinode} (hi : i < s.sb.ninodes) (hx : Dinode.read x (inodeOffset i) = d)
    (hother : ∀ j, inodeOffset i + 64 ≤ j ∨ j < inodeOffset i → x j = s.log.blk (s.sb.iblock i) j) :
    wp (logWrite (s.sb.iblock i) x)
      (fun _ s' => Writes s s' (s.img.setDino i d) [s.sb.iblock i]) (Full s 1) s := by
  refine (logWrite_spec _ x htrans).imp ?_
  rintro - s' ⟨rfl, hroom⟩
  refine ⟨s.wrote_logs _ x (hsb.home_iblock hi) hroom, ?_, rfl⟩
  rw [Fs.wrote_img, imgOf_update_dino hsb hi hx hother]
  rfl

end Write

/-! ## The free map -/

/-- The blocks of the free map. -/
def Superblock.bmapBlocks (sb : Superblock) : List ℕ :=
  List.range' sb.bmapstart ((sb.size + BPB - 1) / BPB)

lemma Superblock.bblock_mem (hb : b < sb.size) :
    sb.bblock b ∈ sb.bmapBlocks := by
  have hbpb : BPB = 8192 := rfl
  rw [bmapBlocks, mem_range'_1, bblock, hbpb]
  omega

lemma Superblock.Ok.home_bmapBlocks (hsb : sb.Ok) :
    ∀ b ∈ sb.bmapBlocks, sb.Home b := fun b hb => by
  have hbpb : BPB = 8192 := rfl
  rw [bmapBlocks, mem_range'_1, hbpb] at hb
  -- the block holds the bit of some block
  have hlt : (b - sb.bmapstart) * 8192 < sb.size := by omega
  have hhome := hsb.home_bblock hlt
  have heq : sb.bblock ((b - sb.bmapstart) * 8192) = b := by
    rw [bblock, hbpb]
    omega
  rwa [heq] at hhome

/-- The effect of `balloc`: either there is no free block, or a free block is taken and zeroed. -/
def Balloc (s : Fs) (b : ℕ) (s' : Fs) : Prop :=
  b = 0 ∧ s' = s ∧ (∀ c < s.sb.size, s.img.bit c = true) ∨
  b ≠ 0 ∧ b < s.sb.size ∧ s.img.bit b = false ∧ Writes s s' (s.img.fresh b) [s.sb.bblock b, b]

section Bitmap

variable {s : Fs} {b : ℕ} (hsb : s.sb.Ok) (htrans : 1 ≤ s.log.outstanding)

include hsb htrans

lemma bzero_spec (hb : s.sb.datastart ≤ b) (hlt : b < s.sb.size) :
    wp (bzero b) (fun _ s' => Writes s s' (s.img.setData b ((s.img.data b).fill 0 BSIZE 0)) [b])
      (Full s 1) s := by
  have hblk : s.log.blk b = s.img.data b := (imgOf_data hb hlt).symm
  unfold bzero
  simp only [wp_bind, wp_bread, hblk]
  exact logWrite_data hsb htrans hb hlt

section

variable (hhead : ∀ c < s.sb.datastart, s.img.bit c = true)
include hhead

/-- Taking a free block. -/
lemma balloc_take {k bi : ℕ} (hbi : bi < BPB) (hlt : k * BPB + bi < s.sb.size)
    (hbit : (s.log.blk (s.sb.bblock (k * BPB))).bit bi = false) :
    wp (do
      logWrite (s.sb.bblock (k * BPB)) ((s.log.blk (s.sb.bblock (k * BPB))).setBit bi)
      bzero (k * BPB + bi)
      return k * BPB + bi) (Balloc s) (Full s 2) s := by
  have hbpb : BPB = 8192 := rfl
  have hmod : (k * BPB + bi) % BPB = bi := by rw [Nat.mul_add_mod', Nat.mod_eq_of_lt hbi]
  have hblock : s.sb.bblock (k * BPB) = s.sb.bblock (k * BPB + bi) := by
    unfold Superblock.bblock
    rw [hbpb] at hbi ⊢
    omega
  rw [hblock] at hbit ⊢
  generalize hb : k * BPB + bi = b at hlt hmod hbit ⊢
  subst hmod
  have hfree : s.img.bit b = false := (imgOf_bit hlt).trans hbit
  have hdata : s.sb.datastart ≤ b := by
    by_contra hc
    rw [hhead b (by omega)] at hfree
    exact absurd hfree (by decide)
  have hmap := hsb.bitmap b hlt
  have hset : ∀ j < BPB, ((s.log.blk (s.sb.bblock b)).setBit (b % BPB)).bit j =
      if j = b % BPB then true else (s.log.blk (s.sb.bblock b)).bit j := fun j _ => by
    rw [Bytes.bit_setBit]
    by_cases hj : j = b % BPB
    · rw [if_pos hj, hj, decide_eq_true rfl, Bool.true_or]
    · rw [if_neg hj, decide_eq_false (Ne.symm hj), Bool.false_or]
  refine ((logWrite_bit hsb htrans hlt hset).mono (fun _ _ => id)
    fun e he => he.mono (by omega)).bind ?_
  intro _ s₁ hw₁
  have htrans₁ : 1 ≤ s₁.log.outstanding := by rwa [hw₁.outstanding]
  rw [wp_bind]
  refine (bzero_spec (hw₁.sb ▸ hsb) htrans₁ (hw₁.sb ▸ hdata) (hw₁.sb ▸ hlt)).mono ?_
    fun e he => hw₁.full he
  intro _ s₂ hw₂
  rw [hw₁.img] at hw₂
  exact Or.inr ⟨by omega, hlt, hfree, hw₁.trans hw₂⟩

lemma ballocLoop_spec (n k : ℕ)
    (hn : s.sb.size ≤ (k + n) * BPB) (hk : ∀ c < k * BPB, c < s.sb.size → s.img.bit c = true) :
    wp (ballocLoop n (k * BPB)) (Balloc s) (Full s 2) s := by
  induction n generalizing k with
  | zero => exact Or.inl ⟨rfl, rfl, fun c hc => hk c (by rw [Nat.add_zero] at hn; omega) hc⟩
  | succ n ih =>
    unfold ballocLoop
    simp only [wp_bind, wp_get, wp_bread]
    have hbpb : BPB = 8192 := rfl
    split
    · next bi hfind =>
      obtain ⟨hbi, hbit⟩ := find_range hfind
      exact balloc_take hsb htrans hhead (by omega) (by omega) (by simpa using hbit)
    · next hfind =>
      rw [← Nat.succ_mul]
      refine ih (k + 1) (by rwa [Nat.add_assoc, Nat.add_comm 1 n]) fun c hc hlt => ?_
      by_cases hck : c < k * BPB
      · exact hk c hck hlt
      · -- the bit of `c` is one of those the loop has just seen
        have hmem : c % BPB ∈ range (min BPB (s.sb.size - k * BPB)) := by
          rw [mem_range]
          rw [hbpb] at hc hck ⊢
          omega
        have hblock : s.sb.bblock c = s.sb.bblock (k * BPB) := by
          unfold Superblock.bblock
          rw [hbpb] at hc hck ⊢
          omega
        have hbit := List.find?_eq_none.mp hfind _ hmem
        rw [Fs.img, imgOf_bit hlt, hblock]
        simpa using hbit

/-- `balloc` takes a free block unless there is none. -/
lemma balloc_spec : wp balloc (Balloc s) (Full s 2) s := by
  unfold balloc
  simp only [wp_bind, wp_get]
  have h := ballocLoop_spec hsb htrans hhead ((s.sb.size + BPB - 1) / BPB) 0
  rw [Nat.zero_mul] at h
  refine h ?_ fun c hc => absurd hc (by omega)
  have hbpb : BPB = 8192 := rfl
  rw [hbpb]
  omega

end

/-- `bfree` frees a block that is in use. -/
lemma bfree_spec (hlt : b < s.sb.size) (hbit : s.img.bit b = true) :
    wp (bfree b) (fun _ s' => Writes s s' (s.img.setBit b false) [s.sb.bblock b]) (Full s 1) s := by
  have hused : (s.log.blk (s.sb.bblock b)).bit (b % BPB) = true := (imgOf_bit hlt).symm.trans hbit
  unfold bfree
  simp only [wp_bind, wp_get, wp_bread, hused]
  rw [wp_ite_neg (by decide)]
  refine logWrite_bit hsb htrans hlt fun j _ => ?_
  rw [Bytes.bit_clearBit]
  by_cases hj : j = b % BPB
  · rw [if_pos hj, hj, decide_eq_true rfl, Bool.not_true, Bool.false_and]
  · rw [if_neg hj, decide_eq_false (Ne.symm hj), Bool.not_false, Bool.true_and]

end Bitmap

/-! ## Inodes on disk -/

section Dinodes

variable {s : Fs} (hsb : s.sb.Ok) (htrans : 1 ≤ s.log.outstanding)

include hsb htrans

/-- `iupdate` stores the in-memory copy. -/
lemma iupdate_spec (ip : ℕ) (hi : (s.inode ip).inum < s.sb.ninodes) :
    wp (iupdate ip) (fun _ s' => Writes s s' (s.img.setDino (s.inode ip).inum (s.inode ip).toDinode)
      [s.sb.iblock (s.inode ip).inum]) (Full s 1) s := by
  unfold iupdate
  simp only [wp_bind, wp_get, wp_bread]
  exact logWrite_dino hsb htrans hi (Dinode.read_write ..) fun j hj =>
    Dinode.write_of_disjoint (by omega)

end Dinodes

end Xv6
