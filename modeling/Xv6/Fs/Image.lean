import Xv6.Fs.Disk

/-!
# The meaning of a disk

An image is what the blocks of a disk mean to the file system: the inodes, the bits of the free map
and the contents of the data blocks.  The places where an inode keeps block numbers are its slots:
the direct blocks, then the indirect block, then the entries of the indirect block.

`Alloc sb f bit` says that the blocks which the owners `f i n` keep are different data blocks and that
the free map has exactly these.  Giving a slot that is empty a fresh block keeps it, and changes no
byte of any file, because a block that is not there reads as zeros (`Grew`).
-/

namespace Xv6

open Function

/-! ## Images -/

@[ext] structure Img where
  dino : ℕ → Dinode
  bit : ℕ → Bool  -- the free map; `true` is in use
  data : ℕ → Block

/-- The number of slots of an inode. -/
def NSLOT : ℕ := NDIRECT + 1 + NINDIRECT

/-- The slot for block `bn` of a file. -/
def fileSlot (bn : ℕ) : ℕ := if bn < NDIRECT then bn else bn + 1

lemma fileSlot_ne (bn : ℕ) : fileSlot bn ≠ NDIRECT := by
  unfold fileSlot
  split <;> omega

lemma fileSlot_lt {bn : ℕ} (h : bn < MAXFILE) : fileSlot bn < NSLOT := by
  unfold fileSlot NSLOT
  unfold MAXFILE at h
  split <;> omega

/-- The entry for a slot lies in the indirect block. -/
lemma indirect_le {n : ℕ} (h : n < NSLOT) : 4 * (n - (NDIRECT + 1)) + 4 ≤ BSIZE := by
  have hslot : NSLOT = NDIRECT + 1 + 256 := rfl
  have hsize : BSIZE = 1024 := rfl
  omega

lemma fileSlot_inj {bn bn' : ℕ} (h : fileSlot bn = fileSlot bn') : bn = bn' := by
  unfold fileSlot at h
  split at h <;> split at h <;> omega

namespace Img

variable (g : Img)

def setDino (i : ℕ) (d : Dinode) : Img := { g with dino := update g.dino i d }

def setBit (b : ℕ) (v : Bool) : Img := { g with bit := update g.bit b v }

def setData (b : ℕ) (x : Block) : Img := { g with data := update g.data b x }

/-- The block number in slot `n` of inode `i`, or 0. -/
def slot (i n : ℕ) : ℕ :=
  if (g.dino i).type = 0 then 0
  else if n ≤ NDIRECT then (g.dino i).addr n
  else if n < NSLOT ∧ (g.dino i).addr NDIRECT ≠ 0 then
    ((g.data ((g.dino i).addr NDIRECT)).get32 (4 * (n - (NDIRECT + 1)))).toNat
  else 0

/-- The byte at offset `o` of inode `i`; a block that is not there reads as zeros. -/
def byte (i o : ℕ) : Byte :=
  if g.slot i (fileSlot (o / BSIZE)) = 0 then 0
  else g.data (g.slot i (fileSlot (o / BSIZE))) (o % BSIZE)

/-- Every block below the size of inode `i` is there, and the size is not too large. -/
structure NoHole (i : ℕ) : Prop where
  size : (g.dino i).size.toNat ≤ MAXFILE * BSIZE
  slot : ∀ bn, bn * BSIZE < (g.dino i).size.toNat → g.slot i (fileSlot bn) ≠ 0

variable {g} {i j n m b : ℕ} {d : Dinode} {x : Block}

@[simp] lemma setDino_bit : (g.setDino i d).bit = g.bit := rfl

@[simp] lemma setDino_data : (g.setDino i d).data = g.data := rfl

@[simp] lemma setDino_self : (g.setDino i d).dino i = d := update_self ..

lemma setDino_of_ne (h : j ≠ i) : (g.setDino i d).dino j = g.dino j := update_of_ne h ..

@[simp] lemma setBit_dino {v : Bool} : (g.setBit b v).dino = g.dino := rfl

@[simp] lemma setBit_data {v : Bool} : (g.setBit b v).data = g.data := rfl

@[simp] lemma setBit_self {v : Bool} : (g.setBit b v).bit b = v := update_self ..

lemma setBit_of_ne {v : Bool} (h : j ≠ b) : (g.setBit b v).bit j = g.bit j :=
  update_of_ne h ..

@[simp] lemma setData_dino : (g.setData b x).dino = g.dino := rfl

@[simp] lemma setData_bit : (g.setData b x).bit = g.bit := rfl

@[simp] lemma setData_data_self : (g.setData b x).data b = x := update_self ..

lemma setData_data_of_ne (h : j ≠ b) : (g.setData b x).data j = g.data j :=
  update_of_ne h ..

lemma slot_direct (ht : (g.dino i).type ≠ 0) (hn : n ≤ NDIRECT) : g.slot i n = (g.dino i).addr n := by
  rw [slot, if_neg ht, if_pos hn]

lemma slot_indirect (ht : (g.dino i).type ≠ 0) (hn : NDIRECT < n) (hn' : n < NSLOT)
    (hind : g.slot i NDIRECT ≠ 0) : g.slot i n =
      ((g.data (g.slot i NDIRECT)).get32 (4 * (n - (NDIRECT + 1)))).toNat := by
  rw [slot_direct ht le_rfl] at hind ⊢
  rw [slot, if_neg ht, if_neg (by omega), if_pos ⟨hn', hind⟩]

lemma slot_indirect_zero (hn : NDIRECT < n) (hind : g.slot i NDIRECT = 0) : g.slot i n = 0 := by
  by_cases ht : (g.dino i).type = 0
  · rw [slot, if_pos ht]
  · rw [slot_direct ht le_rfl] at hind
    rw [slot, if_neg ht, if_neg (by omega), if_neg (fun h => h.2 hind)]

lemma slot_of_ge (hn : NSLOT ≤ n) : g.slot i n = 0 := by
  have hlt : NDIRECT < NSLOT := by decide
  rw [slot]
  split
  · rfl
  · rw [if_neg (by omega), if_neg (by omega)]

lemma slot_of_free (ht : (g.dino i).type = 0) : g.slot i n = 0 := by rw [slot, if_pos ht]

/-- A slot depends on its inode and on the indirect block. -/
lemma slot_congr {g' : Img} (hd : g'.dino i = g.dino i)
    (hx : g.slot i NDIRECT ≠ 0 → ∀ o < BSIZE,
      g'.data (g.slot i NDIRECT) o = g.data (g.slot i NDIRECT) o) : g'.slot i n = g.slot i n := by
  by_cases ht : (g.dino i).type = 0
  · rw [slot_of_free ht, slot_of_free (hd ▸ ht)]
  have ht' : (g'.dino i).type ≠ 0 := hd ▸ ht
  by_cases hn : n ≤ NDIRECT
  · rw [slot_direct ht hn, slot_direct ht' hn, hd]
  by_cases hn' : n < NSLOT
  · have hind : g'.slot i NDIRECT = g.slot i NDIRECT := by
      rw [slot_direct ht le_rfl, slot_direct ht' le_rfl, hd]
    by_cases h0 : g.slot i NDIRECT = 0
    · rw [slot_indirect_zero (by omega) h0, slot_indirect_zero (by omega) (hind.trans h0)]
    · rw [slot_indirect ht (by omega) hn' h0, slot_indirect ht' (by omega) hn' (hind ▸ h0), hind]
      rw [Bytes.get32_congr fun o _ ho => hx h0 o (lt_of_lt_of_le ho (indirect_le hn'))]
  · rw [slot_of_ge (by omega), slot_of_ge (by omega)]

lemma slot_setDino_of_ne (h : j ≠ i) : (g.setDino i d).slot j n = g.slot j n :=
  slot_congr (update_of_ne h ..) fun _ _ _ => rfl

/-- A store into a block that is not the indirect block. -/
lemma slot_setData (h : g.slot i NDIRECT ≠ b) : (g.setData b x).slot i n = g.slot i n :=
  slot_congr rfl fun _ o _ => by rw [setData_data_of_ne h]

/-- Fields other than the type and the addresses are changed. -/
lemma slot_setDino (ht : (d.type = 0) ↔ (g.dino i).type = 0) (ha : d.addrs = (g.dino i).addrs) :
    (g.setDino i d).slot j n = g.slot j n := by
  by_cases hji : j = i
  · subst hji
    have haddr : ∀ n, d.addr n = (g.dino j).addr n := fun n => by
      unfold Dinode.addr
      rw [ha]
    simp only [slot, setDino, update_self, ht, haddr]
  · exact slot_setDino_of_ne hji

lemma byte_of_slot_zero {o : ℕ} (h : g.slot i (fileSlot (o / BSIZE)) = 0) : g.byte i o = 0 :=
  if_pos h

lemma byte_of_slot {o : ℕ} (h : g.slot i (fileSlot (o / BSIZE)) ≠ 0) :
    g.byte i o = g.data (g.slot i (fileSlot (o / BSIZE))) (o % BSIZE) := if_neg h

end Img

/-! ## Who owns the blocks -/

/-- The owners `f` keep different data blocks, and the free map has exactly these, besides the blocks
before the data. -/
structure Alloc (sb : Superblock) (f : ℕ → ℕ → ℕ) (bit : ℕ → Bool) : Prop where
  range : ∀ i n, f i n ≠ 0 → sb.datastart ≤ f i n ∧ f i n < sb.size
  inj : ∀ i n i' n', f i n = f i' n' → f i n ≠ 0 → i = i' ∧ n = n'
  owned : ∀ b, sb.datastart ≤ b → b < sb.size → (bit b = true ↔ ∃ i n, f i n = b)
  pos : 0 < sb.datastart
  head : ∀ b < sb.datastart, bit b = true

/-- The owner of one slot is changed. -/
def setSlot (f : ℕ → ℕ → ℕ) (i n b : ℕ) : ℕ → ℕ → ℕ :=
  fun j m => if j = i ∧ m = n then b else f j m

namespace Alloc

variable {sb : Superblock} {f : ℕ → ℕ → ℕ} {bit : ℕ → Bool} {i n b : ℕ}

section

variable (h : Alloc sb f bit)
include h

lemma congr {f' : ℕ → ℕ → ℕ} (hf : ∀ i n, f' i n = f i n) : Alloc sb f' bit := by
  obtain rfl : f' = f := funext fun i => funext fun n => hf i n
  exact h

/-- A free block has no owner. -/
lemma ne_of_free (hb : bit b = false) (hlt : b < sb.size) (hb0 : b ≠ 0) : f i n ≠ b := by
  rintro rfl
  have hbit := (h.owned _ (h.range i n hb0).1 hlt).mpr ⟨i, n, rfl⟩
  rw [hb] at hbit
  exact absurd hbit (by decide)

lemma datastart_le_of_free (hb : bit b = false) : sb.datastart ≤ b := by
  by_contra hlt
  rw [h.head b (by omega)] at hb
  exact absurd hb (by decide)

/-- An empty slot gets a free block. -/
lemma assign (hn : f i n = 0) (hb : bit b = false) (hlt : b < sb.size)
    (hb0 : b ≠ 0) : Alloc sb (setSlot f i n b) (update bit b true) where
  range j m hne := by
    unfold setSlot at hne ⊢
    split
    · exact ⟨h.datastart_le_of_free hb, hlt⟩
    · next hjm =>
      rw [if_neg hjm] at hne
      exact h.range j m hne
  inj j m j' m' heq hne := by
    have hfree : ∀ j m, f j m ≠ b := fun _ _ => h.ne_of_free hb hlt hb0
    unfold setSlot at heq hne
    split at heq <;> split at heq
    · omega
    · exact absurd heq.symm (hfree j' m')
    · exact absurd heq (hfree j m)
    · next hjm _ =>
      rw [if_neg hjm] at hne
      exact h.inj j m j' m' heq hne
  pos := h.pos
  owned c hc hc' := by
    by_cases hcb : c = b
    · subst hcb
      rw [update_self]
      exact iff_of_true rfl ⟨i, n, if_pos ⟨rfl, rfl⟩⟩
    · rw [update_of_ne hcb, h.owned c hc hc']
      have hc0 : c ≠ 0 := by
        have := h.pos
        omega
      constructor
      · rintro ⟨j, m, hjm⟩
        refine ⟨j, m, ?_⟩
        rw [setSlot, if_neg]
        · exact hjm
        · rintro ⟨rfl, rfl⟩
          exact hc0 (hjm.symm.trans hn)
      · rintro ⟨j, m, hjm⟩
        refine ⟨j, m, ?_⟩
        rw [setSlot] at hjm
        split at hjm
        · exact absurd hjm.symm hcb
        · exact hjm
  head c hc := by
    have hcb : c ≠ b := by
      have := h.datastart_le_of_free hb
      omega
    rw [update_of_ne hcb]
    exact h.head c hc

/-- A block is freed: the slot does not count any more. -/
lemma free (hn : f i n = b) (hb0 : b ≠ 0) :
    bit b = true ∧ Alloc sb (setSlot f i n 0) (update bit b false) := by
  subst hn
  obtain ⟨hle, hlt⟩ := h.range i n hb0
  refine ⟨(h.owned _ hle hlt).mpr ⟨i, n, rfl⟩, ?_, ?_, ?_, h.pos, ?_⟩
  · intro j m hne
    unfold setSlot at hne ⊢
    split
    · next hjm => exact absurd (if_pos hjm) hne
    · next hjm =>
      rw [if_neg hjm] at hne
      exact h.range j m hne
  · intro j m j' m' heq hne
    unfold setSlot at heq hne
    split at heq
    · next hjm => exact absurd (if_pos hjm) hne
    · next hjm =>
      rw [if_neg hjm] at hne
      split at heq
      · exact absurd heq hne
      · exact h.inj j m j' m' heq hne
  · intro c hc hc'
    by_cases hcb : c = f i n
    · subst hcb
      rw [update_self]
      refine iff_of_false (by decide) ?_
      rintro ⟨j, m, hjm⟩
      unfold setSlot at hjm
      split at hjm
      · exact hb0 hjm.symm
      · next hne =>
        exact hne (h.inj j m i n hjm (hjm ▸ hb0))
    · rw [update_of_ne hcb, h.owned c hc hc']
      constructor
      · rintro ⟨j, m, hjm⟩
        refine ⟨j, m, ?_⟩
        rw [setSlot, if_neg]
        · exact hjm
        · rintro ⟨rfl, rfl⟩
          exact hcb hjm.symm
      · rintro ⟨j, m, hjm⟩
        refine ⟨j, m, ?_⟩
        unfold setSlot at hjm
        split at hjm
        · have := h.pos
          omega
        · exact hjm
  · intro c hc
    rw [update_of_ne (by omega)]
    exact h.head c hc

end

end Alloc

/-! ## Blocks that are added to a file -/

/-- Inode `i` may have got blocks in empty slots; no inode has lost a block, and no other field of an
inode has changed. -/
structure KeepsBlocks (sb : Superblock) (g g' : Img) (i : ℕ) : Prop where
  alloc : Alloc sb g'.slot g'.bit
  slot : ∀ j n, g.slot j n ≠ 0 → g'.slot j n = g.slot j n
  slot_other : ∀ j n, j ≠ i → g'.slot j n = g.slot j n
  dino : ∀ j ≠ i, g'.dino j = g.dino j
  dino_self : g'.dino i = { g.dino i with addrs := (g'.dino i).addrs }

/-- Besides, no byte of a file has changed. -/
structure Grew (sb : Superblock) (g g' : Img) (i : ℕ) : Prop extends KeepsBlocks sb g g' i where
  byte : ∀ j o, g'.byte j o = g.byte j o

namespace KeepsBlocks

variable {sb : Superblock} {g g' g'' : Img} {i : ℕ}

lemma refl (h : Alloc sb g.slot g.bit) : KeepsBlocks sb g g i :=
  ⟨h, fun _ _ _ => rfl, fun _ _ _ => rfl, fun _ _ => rfl, rfl⟩

section

variable (h : KeepsBlocks sb g g' i)
include h

lemma trans (h' : KeepsBlocks sb g' g'' i) : KeepsBlocks sb g g'' i where
  alloc := h'.alloc
  slot j n hn := (h'.slot j n (h.slot j n hn ▸ hn)).trans (h.slot j n hn)
  slot_other j n hj := (h'.slot_other j n hj).trans (h.slot_other j n hj)
  dino j hj := (h'.dino j hj).trans (h.dino j hj)
  dino_self := by
    rw [h'.dino_self, h.dino_self]

lemma slot_ne_zero {j n : ℕ} (hn : g.slot j n ≠ 0) : g'.slot j n ≠ 0 := by
  rwa [h.slot j n hn]

lemma type_eq (j : ℕ) : (g'.dino j).type = (g.dino j).type := by
  by_cases hj : j = i
  · rw [hj, h.dino_self]
  · rw [h.dino j hj]

lemma size_eq (j : ℕ) : (g'.dino j).size = (g.dino j).size := by
  by_cases hj : j = i
  · rw [hj, h.dino_self]
  · rw [h.dino j hj]

end

end KeepsBlocks

namespace Grew

variable {sb : Superblock} {g g' g'' : Img} {i : ℕ}

lemma refl (h : Alloc sb g.slot g.bit) : Grew sb g g i := ⟨KeepsBlocks.refl h, fun _ _ => rfl⟩

lemma trans (h : Grew sb g g' i) (h' : Grew sb g' g'' i) : Grew sb g g'' i :=
  ⟨h.toKeepsBlocks.trans h'.toKeepsBlocks, fun j o => (h'.byte j o).trans (h.byte j o)⟩

end Grew

namespace Img

/-- Block `b` is allocated and zeroed. -/
def fresh (g : Img) (b : ℕ) : Img := (g.setBit b true).setData b ((g.data b).fill 0 BSIZE 0)

/-- The fresh block `b` is put in a slot. -/
def assign (g : Img) (i n b : ℕ) : Img :=
  if n ≤ NDIRECT then (g.fresh b).setDino i ((g.dino i).setAddr n b)
  else (g.fresh b).setData (g.slot i NDIRECT)
    ((g.data (g.slot i NDIRECT)).put32 (4 * (n - (NDIRECT + 1))) (BitVec.ofNat 32 b))

section Fresh

variable {sb : Superblock} {g : Img} {i n b : ℕ} (h : Alloc sb g.slot g.bit)
  (hb : g.bit b = false) (hlt : b < sb.size)

include h hb hlt

lemma slot_fresh (j m : ℕ) : (g.fresh b).slot j m = g.slot j m := by
  have hpos := h.datastart_le_of_free hb
  have h0 := h.pos
  exact slot_setData (h.ne_of_free hb hlt (by omega))

section

variable (hsz : sb.size ≤ 2 ^ 32) (ht : (g.dino i).type ≠ 0)
include hsz ht

/-- Putting a block in a direct slot. -/
lemma slot_assign_direct (hn : n ≤ NDIRECT)
    (hempty : g.slot i n = 0) (j m : ℕ) : (g.assign i n b).slot j m = setSlot g.slot i n b j m := by
  have hb0 : b ≠ 0 := by
    have := h.datastart_le_of_free hb
    have := h.pos
    omega
  rw [assign, if_pos hn, setSlot]
  by_cases hji : j = i
  · subst hji
    set g' := (g.fresh b).setDino j ((g.dino j).setAddr n b) with hg'
    have hdino : g'.dino j = (g.dino j).setAddr n b := setDino_self
    have ht' : (g'.dino j).type ≠ 0 := by rwa [hdino]
    have haddr : ∀ m ≤ NDIRECT, g'.slot j m = if m = n then b else g.slot j m := fun m hm => by
      rw [slot_direct ht' hm, hdino, Dinode.addr_setAddr (by omega) (by omega), slot_direct ht hm]
    simp only [true_and]
    by_cases hm : m ≤ NDIRECT
    · exact haddr m hm
    by_cases hm' : m < NSLOT
    · rw [if_neg (by omega)]
      by_cases hn' : n = NDIRECT
      · -- the indirect block itself is fresh: all its entries are zero
        subst hn'
        have hind : g'.slot j NDIRECT = b := (haddr _ le_rfl).trans (if_pos rfl)
        rw [slot_indirect_zero (by omega) hempty, slot_indirect ht' (by omega) hm' (hind ▸ hb0), hind,
          Bytes.get32_eq_zero]
        · rfl
        · intro o _ ho
          have := indirect_le hm'
          rw [hg', setDino_data, fresh, setData_data_self, Bytes.fill_of_mem (by omega)]
      · have hind : g'.slot j NDIRECT = g.slot j NDIRECT :=
          (haddr _ le_rfl).trans (if_neg fun h => hn' h.symm)
        by_cases h0 : g.slot j NDIRECT = 0
        · rw [slot_indirect_zero (by omega) h0, slot_indirect_zero (by omega) (hind.trans h0)]
        · rw [slot_indirect ht (by omega) hm' h0, slot_indirect ht' (by omega) hm' (hind ▸ h0), hind,
            hg', setDino_data, fresh, setData_data_of_ne (h.ne_of_free hb hlt hb0), setBit_data]
    · rw [slot_of_ge (by omega), slot_of_ge (by omega), if_neg (by omega)]
  · rw [slot_setDino_of_ne hji, slot_fresh h hb hlt, if_neg (fun h => hji h.1)]

/-- Putting a block in a slot of the indirect block. -/
lemma slot_assign_indirect (hn : NDIRECT < n)
    (hn' : n < NSLOT) (hind : g.slot i NDIRECT ≠ 0) (j m : ℕ) :
    (g.assign i n b).slot j m = setSlot g.slot i n b j m := by
  have hb0 : b ≠ 0 := by
    have := h.datastart_le_of_free hb
    have := h.pos
    omega
  rw [assign, if_neg (by omega), setSlot]
  by_cases hji : j = i
  · subst hji
    simp only [true_and]
    by_cases hm : m ≤ NDIRECT
    · rw [if_neg (by omega), slot_direct ht hm]
      exact slot_direct ht hm
    by_cases hm' : m < NSLOT
    · generalize hx : (g.data (g.slot j NDIRECT)).put32 (4 * (n - (NDIRECT + 1)))
        (BitVec.ofNat 32 b) = x
      have ht' : (((g.fresh b).setData (g.slot j NDIRECT) x).dino j).type ≠ 0 := ht
      have hself : ((g.fresh b).setData (g.slot j NDIRECT) x).slot j NDIRECT = g.slot j NDIRECT := by
        rw [slot_direct ht' le_rfl, slot_direct ht le_rfl]
        rfl
      rw [slot_indirect ht' (by omega) hm' (by rwa [hself]), hself, setData_data_self, ← hx]
      by_cases hmn : m = n
      · rw [hmn, Bytes.get32_put32, if_pos rfl, BitVec.toNat_ofNat, Nat.mod_eq_of_lt (by omega)]
      · rw [Bytes.get32_put32_of_disjoint (by omega), if_neg hmn, slot_indirect ht (by omega) hm' hind]
    · rw [slot_of_ge (by omega), slot_of_ge (by omega), if_neg (by omega)]
  · have hne : (g.fresh b).slot j NDIRECT ≠ g.slot i NDIRECT := fun heq => by
      rw [slot_fresh h hb hlt] at heq
      exact hji (h.inj _ _ _ _ heq (heq ▸ hind)).1
    rw [slot_setData hne, slot_fresh h hb hlt, if_neg (fun h => hji h.1)]

/-- Putting a block in an empty slot changes this slot only. -/
lemma slot_assign (hn : n < NSLOT)
    (hempty : g.slot i n = 0) (hind : NDIRECT < n → g.slot i NDIRECT ≠ 0) (j m : ℕ) :
    (g.assign i n b).slot j m = setSlot g.slot i n b j m := by
  by_cases hd : n ≤ NDIRECT
  · exact slot_assign_direct h hb hlt hsz ht hd hempty j m
  · exact slot_assign_indirect h hb hlt hsz ht (by omega) hn (hind (by omega)) j m

/-- Giving a slot a fresh block adds a block to the file. -/
lemma grew_assign (hn : n < NSLOT)
    (hempty : g.slot i n = 0) (hind : NDIRECT < n → g.slot i NDIRECT ≠ 0) :
    Grew sb g (g.assign i n b) i ∧ (g.assign i n b).slot i n = b := by
  have hb0 : b ≠ 0 := by
    have := h.datastart_le_of_free hb
    have := h.pos
    omega
  have hfree : ∀ j m, g.slot j m ≠ b := fun _ _ => h.ne_of_free hb hlt hb0
  have hslot := slot_assign h hb hlt hsz ht hn hempty hind
  have hother : ∀ j m, ¬(j = i ∧ m = n) → (g.assign i n b).slot j m = g.slot j m := fun j m hjm =>
    (hslot j m).trans (if_neg hjm)
  -- what the blocks of the files hold
  have hdata : ∀ c, c ≠ b → c ≠ g.slot i NDIRECT → (g.assign i n b).data c = g.data c :=
    fun c hc hc' => by
      unfold assign
      split
      · exact setData_data_of_ne hc
      · rw [setData_data_of_ne hc', fresh, setData_data_of_ne hc, setBit_data]
  have hzero : ∀ o < BSIZE, (g.assign i n b).data b o = 0 := fun o ho => by
    unfold assign
    split
    · rw [setDino_data, fresh, setData_data_self, Bytes.fill_of_mem (by omega)]
    · rw [setData_data_of_ne (hfree _ _).symm, fresh, setData_data_self,
        Bytes.fill_of_mem (by omega)]
  have hbit : (g.assign i n b).bit = update g.bit b true := by
    unfold assign
    split <;> rfl
  refine ⟨⟨⟨?_, ?_, ?_, ?_, ?_⟩, ?_⟩, (hslot i n).trans (if_pos ⟨rfl, rfl⟩)⟩
  · rw [hbit]
    exact (h.assign hempty hb hlt hb0).congr hslot
  · intro j m hne
    refine hother j m ?_
    rintro ⟨rfl, rfl⟩
    exact hne hempty
  · exact fun j m hj => hother j m fun hjm => hj hjm.1
  · intro j hj
    unfold assign
    split
    · exact setDino_of_ne hj
    · rfl
  · unfold assign
    split
    · rw [setDino_self]
      rfl
    · rfl
  · intro j o
    by_cases hjo : j = i ∧ fileSlot (o / BSIZE) = n
    · obtain ⟨rfl, hfs⟩ := hjo
      have hself : (g.assign j n b).slot j (fileSlot (o / BSIZE)) = b := by
        rw [hfs]
        exact (hslot j n).trans (if_pos ⟨rfl, rfl⟩)
      have hnew : (g.assign j n b).byte j o = 0 := by
        rw [byte_of_slot (by rwa [hself]), hself]
        exact hzero _ (Nat.mod_lt _ (by decide))
      rw [hnew, byte_of_slot_zero (by rwa [hfs])]
    · have hsame := hother j (fileSlot (o / BSIZE)) hjo
      by_cases h0 : g.slot j (fileSlot (o / BSIZE)) = 0
      · rw [byte_of_slot_zero h0, byte_of_slot_zero (hsame.trans h0)]
      · rw [byte_of_slot h0, byte_of_slot (by rwa [hsame]), hsame, hdata _ (hfree _ _)]
        exact fun heq => fileSlot_ne _ (h.inj _ _ _ _ heq h0).2

end

end Fresh

section Write

variable {sb : Superblock} {g : Img} {i bn : ℕ} {x : Block} (h : Alloc sb g.slot g.bit)
  (ha : g.slot i (fileSlot bn) ≠ 0)

include h ha

/-- Writing a block of a file does not change which blocks there are. -/
lemma slot_write (j m : ℕ) : (g.setData (g.slot i (fileSlot bn)) x).slot j m = g.slot j m :=
  slot_setData fun heq => fileSlot_ne bn (h.inj _ _ _ _ heq (heq ▸ ha)).2.symm

/-- Writing a block of a file changes the bytes of this block only. -/
lemma byte_write (j o : ℕ) : (g.setData (g.slot i (fileSlot bn)) x).byte j o =
    if j = i ∧ o / BSIZE = bn then x (o % BSIZE) else g.byte j o := by
  have hslot := slot_write (x := x) h ha j (fileSlot (o / BSIZE))
  split
  · next hjo =>
    obtain ⟨rfl, rfl⟩ := hjo
    rw [byte_of_slot (by rwa [hslot]), hslot, setData_data_self]
  · next hjo =>
    by_cases h0 : g.slot j (fileSlot (o / BSIZE)) = 0
    · rw [byte_of_slot_zero h0, byte_of_slot_zero (hslot.trans h0)]
    · rw [byte_of_slot h0, byte_of_slot (by rwa [hslot]), hslot, setData_data_of_ne]
      intro heq
      obtain ⟨hj, hbn⟩ := h.inj _ _ _ _ heq h0
      exact hjo ⟨hj, fileSlot_inj hbn⟩

/-- Overwriting a piece of a block changes the bytes of this piece. -/
lemma byte_blit {p : ℕ} (hp : p / BSIZE = bn) (src : Bytes) (so : ℕ) {m : ℕ}
    (hm : p % BSIZE + m ≤ BSIZE) (j o : ℕ) :
    (g.setData (g.slot i (fileSlot bn))
      ((g.data (g.slot i (fileSlot bn))).blit (p % BSIZE) src so m)).byte j o =
      if j = i ∧ p ≤ o ∧ o < p + m then src (so + (o - p)) else g.byte j o := by
  have hbs : BSIZE = 1024 := rfl
  rw [byte_write h ha]
  subst hp
  by_cases hj : j = i ∧ o / BSIZE = p / BSIZE
  · obtain ⟨rfl, hdiv⟩ := hj
    rw [if_pos ⟨rfl, hdiv⟩]
    by_cases ho : p ≤ o ∧ o < p + m
    · rw [Bytes.blit_of_mem (by rw [hbs] at hdiv ⊢; omega), if_pos ⟨rfl, ho⟩,
        show o % BSIZE - p % BSIZE = o - p by rw [hbs] at hdiv ⊢; omega]
    · rw [Bytes.blit_of_notMem (by rw [hbs] at hdiv ⊢; omega), if_neg (fun h => ho h.2),
        byte_of_slot (by rwa [hdiv]), hdiv]
  · rw [if_neg hj, if_neg]
    rintro ⟨rfl, hlo, hhi⟩
    refine hj ⟨rfl, ?_⟩
    rw [hbs] at hm ⊢
    omega

lemma keeps_write : KeepsBlocks sb g (g.setData (g.slot i (fileSlot bn)) x) i :=
  ⟨h.congr (slot_write h ha), fun _ _ _ => slot_write h ha _ _, fun _ _ _ => slot_write h ha _ _,
    fun _ _ => rfl, rfl⟩

end Write

end Img

end Xv6
