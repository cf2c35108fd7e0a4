import Xv6.Fs.Map

/-!
# The contents of inodes

`readi` and `writei`.  The contents of inode `k` are the bytes `(s.work k).byte` below its size; bytes
beyond the size are there as well, in the blocks, but no read gets to see them.
-/

namespace Xv6

/-- The bytes of inode `k`, also those beyond its size. -/
def Fs.byte (s : Fs) (k : ℕ) : Bytes := (s.work k).byte (s.inode k).inum

/-- The size of inode `k`. -/
def Fs.size (s : Fs) (k : ℕ) : ℕ := (s.inode k).size.toNat

/-- Inode `k` has all blocks below its size. -/
def Fs.NoHole (s : Fs) (k : ℕ) : Prop := (s.work k).NoHole (s.inode k).inum

section Read

variable {s : Fs} {k : ℕ}

lemma Fs.NoHole.size_le (h : s.NoHole k) : s.size k ≤ MAXFILE * BSIZE := by
  have := h.size
  rwa [work_dino_self] at this

lemma Fs.NoHole.slot_ne {bn : ℕ} (h : s.NoHole k) (hbn : bn * BSIZE < s.size k) :
    (s.work k).slot (s.inode k).inum (fileSlot bn) ≠ 0 :=
  Img.NoHole.slot h bn (by rwa [work_dino_self])

/-- The bytes of a block that is there. -/
lemma Working.blk_byte (hw : Working s k) {o i : ℕ}
    (hslot : (s.work k).slot (s.inode k).inum (fileSlot (o / BSIZE)) ≠ 0)
    (hi : o % BSIZE + i < BSIZE) :
    s.log.blk ((s.work k).slot (s.inode k).inum (fileSlot (o / BSIZE))) (o % BSIZE + i) =
      s.byte k (o + i) := by
  have hbs : BSIZE = 1024 := rfl
  have hdiv : (o + i) / BSIZE = o / BSIZE := by
    rw [hbs] at hi ⊢
    omega
  have hmod : (o + i) % BSIZE = o % BSIZE + i := by
    rw [hbs] at hi ⊢
    omega
  rw [hw.blk_slot hslot, Fs.byte, Img.byte_of_slot (by rwa [hdiv]), hdiv, hmod]

/-- The loop of `readi`, where `[off, off + (n - tot))` is below the size of the inode. -/
lemma readiLoop_spec (hw : Working s k) (hno : s.NoHole k) {E : String → Prop}
    (stops : ℕ → ℕ → Option ℕ) (n fuel : ℕ) (dst : Bytes) (tot off : ℕ) (hfuel : n - tot ≤ fuel)
    (htot : tot ≤ n) (hend : off + (n - tot) ≤ s.size k) :
    wp (readiLoop k stops n fuel dst tot off) (fun r s' => s' = s ∧
      (r = ((n : ℤ), dst.blit tot (s.byte k) off (n - tot)) ∨
        (∃ t m, stops t m ≠ none) ∧ ∃ p ≤ n - tot, r = (-1, dst.blit tot (s.byte k) off p))) E s := by
  induction fuel generalizing dst tot off with
  | zero =>
    obtain rfl : tot = n := by omega
    refine ⟨rfl, Or.inl ?_⟩
    rw [Nat.sub_self, Bytes.blit_zero]
  | succ fuel ih =>
    unfold readiLoop
    by_cases hge : tot ≥ n
    · obtain rfl : tot = n := by omega
      rw [wp_ite_pos hge, Nat.sub_self, Bytes.blit_zero]
      exact ⟨rfl, Or.inl rfl⟩
    have hbs : BSIZE = 1024 := rfl
    have hmax := hno.size_le
    have hslot : (s.work k).slot (s.inode k).inum (fileSlot (off / BSIZE)) ≠ 0 :=
      hno.slot_ne (by rw [hbs]; omega)
    rw [wp_ite_neg hge, wp_bind]
    refine (bmap_of_slot hw (by rw [hbs] at hmax ⊢; omega) hslot).imp ?_
    rintro a s' ⟨rfl, rfl⟩
    rw [wp_ite_neg hslot]
    simp only [wp_bind, wp_bread]
    -- the piece `m` of this iteration lies in one block
    generalize hm : min (n - tot) (BSIZE - off % BSIZE) = m
    have hpos : 0 < m ∧ m ≤ n - tot ∧ off % BSIZE + m ≤ BSIZE := by
      rw [hbs] at hm ⊢
      omega
    have hblit : ∀ p ≤ m, dst.blit tot
        (s'.log.blk ((s'.work k).slot (s'.inode k).inum (fileSlot (off / BSIZE)))) (off % BSIZE) p =
        dst.blit tot (s'.byte k) off p := fun p hp =>
      Bytes.blit_congr fun i hi => hw.blk_byte hslot (by omega)
    split
    · next j hstop =>
      rw [hblit _ (Nat.min_le_right ..)]
      exact ⟨rfl, Or.inr ⟨⟨tot, m, by simp [hstop]⟩, min j m, by omega, rfl⟩⟩
    · rw [hblit m le_rfl]
      refine (ih _ (tot + m) (off + m) (by omega) (by omega) (by omega)).imp ?_
      rintro r s'' ⟨hs, hr⟩
      refine ⟨hs, hr.imp ?_ ?_⟩
      · rintro rfl
        rw [Bytes.blit_blit, show m + (n - (tot + m)) = n - tot by omega]
      · rintro ⟨hstop, p, hp, rfl⟩
        exact ⟨hstop, m + p, by omega, by rw [Bytes.blit_blit]⟩

/-- What `readi` does: the result and the contents of the destination. -/
def ReadiPost (s : Fs) (k : ℕ) (dst : Buffer) (off n : ℕ) (r : ℤ × Bytes) : Prop :=
  if s.size k < off ∨ 2 ^ 32 ≤ off + n then r = (0, dst.byte)
  else
    r = (((min (off + n) (s.size k) - off : ℕ) : ℤ),
      dst.byte.blit 0 (s.byte k) off (min (off + n) (s.size k) - off)) ∨
    (∃ t m, dst.stops t m ≠ none) ∧ ∃ p ≤ min (off + n) (s.size k) - off,
      r = (-1, dst.byte.blit 0 (s.byte k) off p)

/-- **`readi`** reads the bytes of the inode, and changes nothing. -/
lemma readi_spec (hw : Working s k) (hno : s.NoHole k) {E : String → Prop} (dst : Buffer)
    {off n : ℕ} (hoff : off < 2 ^ 32) (hn : n < 2 ^ 32) :
    wp (readi k dst off n) (fun r s' => s' = s ∧ ReadiPost s k dst off n r) E s := by
  unfold readi ReadiPost
  simp only [wp_bind, wp_get]
  have hsize : (s.inode k).size.toNat = s.size k := rfl
  rw [hsize]
  by_cases hbad : s.size k < off ∨ 2 ^ 32 ≤ off + n
  · simp only [if_pos hbad]
    rw [wp_ite_pos (by omega)]
    exact ⟨rfl, rfl⟩
  · have hmod : (off + n) % 2 ^ 32 = off + n := by omega
    have hlen : (if (off + n) % 2 ^ 32 > s.size k then s.size k - off else n) =
        min (off + n) (s.size k) - off := by
      rw [hmod]
      split <;> omega
    simp only [if_neg hbad, hlen]
    rw [wp_ite_neg (by omega)]
    exact readiLoop_spec hw hno dst.stops _ _ dst.byte 0 off (by omega) (by omega) (by omega)

end Read

/-! ## Writing -/

/-- The blocks that are logged when the blocks `[lo, hi)` of inode `k` are written: the blocks, the
free map for those that are new, the indirect block and the free map for it. -/
def WriteLog (s s' : Fs) (k lo hi x : ℕ) : Prop :=
  (∃ bn, lo ≤ bn ∧ bn < hi ∧ (s'.work k).slot (s.inode k).inum (fileSlot bn) ≠ 0 ∧
    (x = (s'.work k).slot (s.inode k).inum (fileSlot bn) ∨
      (s.work k).slot (s.inode k).inum (fileSlot bn) = 0 ∧
        x = s.sb.bblock ((s'.work k).slot (s.inode k).inum (fileSlot bn)))) ∨
  (s'.work k).slot (s.inode k).inum NDIRECT ≠ 0 ∧
    (x = (s'.work k).slot (s.inode k).inum NDIRECT ∨
      x = s.sb.bblock ((s'.work k).slot (s.inode k).inum NDIRECT))

/-- The `t` bytes from `off` on of inode `k` have been overwritten, in blocks below `hi`. -/
structure Overwrote (s s' : Fs) (k : ℕ) (src : Bytes) (off t hi : ℕ) (B : List ℕ) : Prop
    extends Works s s' k B where
  keeps : KeepsBlocks s.sb (s.work k) (s'.work k) (s.inode k).inum
  byte : ∀ j o, (s'.work k).byte j o =
    if j = (s.inode k).inum ∧ off ≤ o ∧ o < off + t then src (o - off) else (s.work k).byte j o
  logged : ∀ x ∈ B, WriteLog s s' k (off / BSIZE) hi x
  few : B.length ≤ 6 * (hi - off / BSIZE)

namespace Overwrote

variable {s s' : Fs} {k : ℕ} {src : Bytes} {off t hi : ℕ} {B : List ℕ}

lemma refl (hw : Working s k) : Overwrote s s k src off 0 (off / BSIZE) [] :=
  ⟨Works.refl s k, KeepsBlocks.refl hw.alloc, fun j o => (if_neg (by omega)).symm, by simp, by simp⟩

lemma mono {hi' : ℕ} (h : Overwrote s s' k src off t hi B) (hle : hi ≤ hi') :
    Overwrote s s' k src off t hi' B :=
  ⟨h.toWorks, h.keeps, h.byte, fun x hx => (h.logged x hx).imp_left
    fun ⟨bn, hlo, hhi, hbn⟩ => ⟨bn, hlo, by omega, hbn⟩, le_trans h.few (by omega)⟩

end Overwrote

/-- What is logged stays so when more blocks are added. -/
lemma WriteLog.next {s s' s'' : Fs} {k lo hi hi' x : ℕ} (h : WriteLog s s' k lo hi x)
    (hg : KeepsBlocks s.sb (s'.work k) (s''.work k) (s.inode k).inum) (hle : hi ≤ hi') :
    WriteLog s s'' k lo hi' x := by
  rcases h with ⟨bn, hlo, hhi, hne, hx⟩ | ⟨hne, hx⟩
  · refine Or.inl ⟨bn, hlo, by omega, hg.slot_ne_zero hne, ?_⟩
    rwa [hg.slot _ _ hne]
  · refine Or.inr ⟨hg.slot_ne_zero hne, ?_⟩
    rwa [hg.slot _ _ hne]

section Write

variable {s s' s₁ : Fs} {k : ℕ} {src : Bytes} {off tot a m : ℕ} {B B₁ : List ℕ}

/-- A block has been looked up, and added if it was not there. -/
lemma Overwrote.mapped (hst : Overwrote s s' k src off tot ((off + tot) / BSIZE) B)
    (hm : Mapped s' k (fileSlot ((off + tot) / BSIZE)) a s₁ B₁) (hlen : B₁.length ≤ 5)
    (hB₁ : ∀ x ∈ B₁, (s'.work k).slot (s'.inode k).inum (fileSlot ((off + tot) / BSIZE)) = 0 ∧
      MapLog s₁ k a x) :
    Overwrote s s₁ k src off tot ((off + tot) / BSIZE + 1) (B ++ B₁) ∧ (B ++ B₁).length ≤
      6 * ((off + tot) / BSIZE - off / BSIZE) + 5 := by
  have hinum := hst.inum
  have hgrew := hm.grew
  rw [hinum, hst.sb] at hgrew
  have hle : off / BSIZE ≤ (off + tot) / BSIZE := Nat.div_le_div_right (by omega)
  have hfew := hst.few
  have hlen' : (B ++ B₁).length ≤ 6 * ((off + tot) / BSIZE - off / BSIZE) + 5 := by
    rw [List.length_append]
    omega
  refine ⟨⟨hst.toWorks.trans hm.toWorks, hst.keeps.trans hgrew.toKeepsBlocks,
    fun j o => (hgrew.byte j o).trans (hst.byte j o), fun x hx => ?_, by omega⟩, hlen'⟩
  rcases List.mem_append.mp hx with hx | hx
  · exact (hst.logged x hx).next hgrew.toKeepsBlocks (Nat.le_succ _)
  · obtain ⟨h0, hlog⟩ := hB₁ x hx
    have h0' : (s.work k).slot (s.inode k).inum (fileSlot ((off + tot) / BSIZE)) = 0 := by
      by_contra hne
      rw [hinum] at h0
      exact hst.keeps.slot_ne_zero hne h0
    have hslot := hm.slot
    rw [hinum] at hslot
    rcases hlog with ⟨ha, hx⟩ | hx
    · refine Or.inl ⟨_, hle, Nat.lt_succ_self _, by rwa [hslot], ?_⟩
      rw [hslot]
      exact hx.imp_right fun hx => ⟨h0', by rwa [hm.sb, hst.sb] at hx⟩
    · rw [hm.inum, hinum, hm.sb, hst.sb] at hx
      exact Or.inr hx

/-- A piece of a block is overwritten. -/
lemma Overwrote.write (hw : Working s₁ k) (htrans : 1 ≤ s₁.log.outstanding)
    (hst : Overwrote s s₁ k src off tot ((off + tot) / BSIZE + 1) B)
    (hslot : (s₁.work k).slot (s.inode k).inum (fileSlot ((off + tot) / BSIZE)) = a) (ha : a ≠ 0)
    (hm : (off + tot) % BSIZE + m ≤ BSIZE)
    (hlen : B.length ≤ 6 * ((off + tot) / BSIZE - off / BSIZE) + 5) :
    wp (logWrite a ((s₁.log.blk a).blit ((off + tot) % BSIZE) src tot m))
      (fun _ s₂ => Overwrote s s₂ k src off (tot + m) ((off + tot) / BSIZE + 1) (B ++ [a]) ∧
        ∀ j n, (s₂.work k).slot j n = (s₁.work k).slot j n)
      (Full s (B.length + 1)) s₁ := by
  have hinum := hst.inum
  have hle : off / BSIZE ≤ (off + tot) / BSIZE := Nat.div_le_div_right (by omega)
  have hbs : BSIZE = 1024 := rfl
  subst hslot
  obtain ⟨hlo, hhi⟩ := hw.alloc.range _ _ ha
  refine (logWrite_data hw.sb htrans hlo hhi).mono ?_ fun e he => hst.full he
  intro _ s₂ hwr
  generalize hx : (s₁.log.blk ((s₁.work k).slot (s.inode k).inum
    (fileSlot ((off + tot) / BSIZE)))).blit ((off + tot) % BSIZE) src tot m = x at hwr
  have hwork : s₂.work k = (s₁.work k).setData
      ((s₁.work k).slot (s.inode k).inum (fileSlot ((off + tot) / BSIZE))) x := by
    rw [hwr.work]
    rfl
  have hkeeps := Img.keeps_write (x := x) hw.alloc ha
  rw [hst.sb] at hkeeps
  refine ⟨⟨hst.toWorks.trans (Works.of_writes hwr), ?_, fun j o => ?_, fun y hy => ?_, ?_⟩,
    fun j n => by rw [hwork, Img.slot_write hw.alloc ha]⟩
  · rw [hwork]
    exact hst.keeps.trans hkeeps
  · have hblk := hw.blk_slot ha
    rw [hwork, ← hx, hblk, Img.byte_blit hw.alloc ha rfl src tot hm, hst.byte j o]
    by_cases ho : j = (s.inode k).inum ∧ off ≤ o ∧ o < off + tot
    · rw [if_neg (by omega), if_pos ho, if_pos ⟨ho.1, by omega⟩]
    · by_cases ho' : j = (s.inode k).inum ∧ off + tot ≤ o ∧ o < off + tot + m
      · rw [if_pos ho', if_pos ⟨ho'.1, by omega⟩, show tot + (o - (off + tot)) = o - off by omega]
      · rw [if_neg ho', if_neg ho, if_neg (by omega)]
  · rcases List.mem_append.mp hy with hy | hy
    · refine (hst.logged y hy).next ?_ le_rfl
      rw [hwork]
      exact hkeeps
    · refine Or.inl ⟨_, hle, Nat.lt_succ_self _, ?_, Or.inl ?_⟩
      · rw [hwork]
        exact hkeeps.slot_ne_zero ha
      · rw [hwork, hkeeps.slot _ _ ha]
        exact List.mem_singleton.mp hy
  · rw [List.length_append, List.length_singleton]
    omega

/-- Why a write of `n` bytes ends after `r` bytes, and how many bytes it has stored then: all are
written, or there is no free block, or the source cannot be read. -/
def WriteStop (src : Buffer) (s' : Fs) (off n r t : ℕ) : Prop :=
  r = n ∧ t = n ∨
  r < n ∧ t = r ∧ (∀ c < s'.sb.size, s'.img.bit c = true) ∨
  r < n ∧ t ≤ n ∧ (∃ m, src.stops r m ≠ none) ∧ r ≤ t ∧ (off + r) % BSIZE + (t - r) ≤ BSIZE

/-- The loop of `writei`.  The first `tot` bytes have been written, and these end a block unless
nothing or everything is written. -/
lemma writeiLoop_spec (hw : Working s k) (htrans : 1 ≤ s.log.outstanding) (src : Buffer) {n : ℕ}
    (hend : off + n ≤ MAXFILE * BSIZE) (fuel tot hi : ℕ) (hfuel : n - tot ≤ fuel) (htot : tot ≤ n)
    (s' : Fs) (B : List ℕ) (hst : Overwrote s s' k src.byte off tot hi B)
    (hhi : tot < n → hi = (off + tot) / BSIZE) (hhi' : hi ≤ (off + n - 1) / BSIZE + 1)
    (hmap : ∀ bn, bn * BSIZE < off + tot → (s'.work k).slot (s.inode k).inum (fileSlot bn) ≠ 0) :
    wp (writeiLoop k src n fuel tot (off + tot)) (fun r s'' => ∃ t B',
        Overwrote s s'' k src.byte off t ((off + n - 1) / BSIZE + 1) B' ∧ WriteStop src s'' off n r t ∧
        ∀ bn, bn * BSIZE < off + r → (s''.work k).slot (s.inode k).inum (fileSlot bn) ≠ 0)
      (Full s (6 * ((off + n - 1) / BSIZE + 1 - off / BSIZE))) s' := by
  induction fuel generalizing tot hi s' B with
  | zero =>
    obtain rfl : tot = n := by omega
    exact ⟨tot, B, hst.mono hhi', Or.inl ⟨rfl, rfl⟩, hmap⟩
  | succ fuel ih =>
    unfold writeiLoop
    by_cases hge : tot ≥ n
    · obtain rfl : tot = n := by omega
      rw [wp_ite_pos hge]
      exact ⟨tot, B, hst.mono hhi', Or.inl ⟨rfl, rfl⟩, hmap⟩
    obtain rfl := hhi (by omega)
    have hbs : BSIZE = 1024 := rfl
    have hnext : (off + tot) / BSIZE + 1 ≤ (off + n - 1) / BSIZE + 1 :=
      Nat.succ_le_succ (Nat.div_le_div_right (by omega))
    have hle : off / BSIZE ≤ (off + tot) / BSIZE := Nat.div_le_div_right (by omega)
    have hfew := hst.few
    have hinum := hst.inum
    have hw' := hw.next hst.toWorks hst.keeps
    rw [wp_ite_neg hge, wp_bind]
    refine (bmap_spec hw' (by rwa [hst.outstanding]) (by rw [hbs] at hend ⊢; omega)).mono ?_
      fun e he => (hst.full he).mono (by omega)
    rintro a s₁ ⟨B₁, hm₁, hlen₁, hB₁⟩
    obtain ⟨hst₁, hlen⟩ := hst.mapped hm₁ hlen₁ hB₁
    have hw₁ := hw.next hst₁.toWorks hst₁.keeps
    have hslot₁ := hm₁.slot
    have hgrew₁ := hm₁.grew
    rw [hinum] at hslot₁ hgrew₁
    by_cases ha : a = 0
    · rw [wp_ite_pos ha]
      refine ⟨tot, _, hst₁.mono hnext, Or.inr (Or.inl ⟨by omega, rfl, ?_⟩),
        fun bn hbn => hgrew₁.slot_ne_zero (hmap bn hbn)⟩
      rw [hm₁.sb]
      exact hm₁.nospace ha
    rw [wp_ite_neg ha]
    simp only [wp_bind, wp_bread]
    generalize hm : min (n - tot) (BSIZE - (off + tot) % BSIZE) = m
    have hpos : 0 < m ∧ m ≤ n - tot ∧ (off + tot) % BSIZE + m ≤ BSIZE := by
      rw [hbs] at hm ⊢
      omega
    have htrans₁ : 1 ≤ s₁.log.outstanding := by rwa [hst₁.outstanding]
    split
    · next j hstop =>
      rw [wp_bind]
      refine (hst₁.write hw₁ htrans₁ hslot₁ ha (m := min j m) (by omega) hlen).mono ?_
        fun e he => he.mono (by omega)
      rintro - s₂ ⟨hst₂, hslot₂⟩
      refine ⟨_, _, hst₂.mono hnext, Or.inr (Or.inr ⟨by omega, by omega, ⟨m, by simp [hstop]⟩,
        by omega, by omega⟩), fun bn hbn => ?_⟩
      rw [hslot₂]
      exact hgrew₁.slot_ne_zero (hmap bn hbn)
    · rw [wp_bind]
      refine (hst₁.write hw₁ htrans₁ hslot₁ ha (m := m) (by omega) hlen).mono ?_
        fun e he => he.mono (by omega)
      rintro - s₂ ⟨hst₂, hslot₂⟩
      rw [Nat.add_assoc off]
      refine ih (tot + m) _ (by omega) (by omega) s₂ _ hst₂ ?_ hnext ?_
      · intro hlt
        rw [hbs] at hm ⊢
        omega
      · intro bn hbn
        rw [hslot₂]
        by_cases hbn' : bn * BSIZE < off + tot
        · exact hgrew₁.slot_ne_zero (hmap bn hbn')
        · obtain rfl : bn = (off + tot) / BSIZE := by
            rw [hbs] at hbn hbn' hpos ⊢
            omega
          rwa [hslot₁]

end Write

/-- `writei` refuses to write. -/
def WriteRefused (s : Fs) (k off n : ℕ) : Prop :=
  s.size k < off ∨ 2 ^ 32 ≤ off + n ∨ MAXFILE * BSIZE < off + n

instance (s : Fs) (k off n : ℕ) : Decidable (WriteRefused s k off n) :=
  inferInstanceAs (Decidable (_ ∨ _ ∨ _))

/-- The blocks that a write of `n` bytes touches. -/
def blocksOf (off n : ℕ) : ℕ := (off + n - 1) / BSIZE + 1 - off / BSIZE

/-- `writei` has written `r` of `n` bytes, and stored `t` bytes. -/
structure Written (s s' : Fs) (k : ℕ) (src : Buffer) (off n r t : ℕ) (B : List ℕ) : Prop
    extends Works s s' k B where
  stop : WriteStop src s' off n r t
  img : s'.img = s'.work k
  alloc : Alloc s.sb s'.img.slot s'.img.bit
  size : s'.size k = max (s.size k) (off + r)
  noHole : s'.NoHole k
  copy : (s'.inode k).toDinode =
    { (s.inode k).toDinode with size := (s'.inode k).size, addrs := (s'.inode k).addrs }
  slot : ∀ j n, (s.work k).slot j n ≠ 0 → s'.img.slot j n = (s.work k).slot j n
  slot_other : ∀ j n, j ≠ (s.inode k).inum → s'.img.slot j n = (s.work k).slot j n
  dino : ∀ j ≠ (s.inode k).inum, s'.img.dino j = (s.work k).dino j
  byte : ∀ j o, s'.img.byte j o =
    if j = (s.inode k).inum ∧ off ≤ o ∧ o < off + t then src.byte (o - off) else (s.work k).byte j o
  logged : ∀ x ∈ B, x = s.sb.iblock (s.inode k).inum ∨
    WriteLog s s' k (off / BSIZE) ((off + n - 1) / BSIZE + 1) x

lemma Img.byte_congr {g g' : Img} {j o : ℕ} (hslot : ∀ n, g'.slot j n = g.slot j n)
    (hdata : g'.data = g.data) : g'.byte j o = g.byte j o := by
  unfold byte
  rw [hslot, hdata]

section Writei

variable {s : Fs} {k : ℕ} (hw : Working s k) (htrans : 1 ≤ s.log.outstanding) (hno : s.NoHole k)

include hw htrans hno

/-- The end of `writei`: the size is updated and the inode is stored. -/
lemma writei_end {src : Buffer} {off n r t : ℕ} {s₁ : Fs} {B : List ℕ}
    (hend : off + n ≤ MAXFILE * BSIZE)
    (hst : Overwrote s s₁ k src.byte off t ((off + n - 1) / BSIZE + 1) B)
    (hstop : WriteStop src s₁ off n r t)
    (hmap : ∀ bn, bn * BSIZE < off + r → (s₁.work k).slot (s.inode k).inum (fileSlot bn) ≠ 0)
    (f : Inode → Inode) (hf : f (s₁.inode k) = { s₁.inode k with
      size := BitVec.ofNat 32 (max (s.size k) (off + r)) }) :
    wp (iupdate k) (fun _ s' => Written s s' k src off n r t (B ++ [s.sb.iblock (s.inode k).inum]))
      (Full s (B.length + 1)) (s₁.onInode k f) := by
  have hlogs := hst.toLogs.onInode k f
  have hmax := hno.size_le
  have hr : r ≤ n := by
    rcases hstop with h | h | h <;> omega
  have hk : (s₁.onInode k f).inode k = { s₁.inode k with
      size := BitVec.ofNat 32 (max (s.size k) (off + r)) } := by rw [onInode_self, hf]
  have hinum : ((s₁.onInode k f).inode k).inum = (s.inode k).inum := by rw [hk, hst.self]
  refine (iupdate_spec (hlogs.sb ▸ hw.sb) (by rwa [hlogs.outstanding]) k ?_).mono ?_
    fun e he => hlogs.full he
  · rw [hinum, hlogs.sb]
    exact hw.inum
  intro _ s' hwr
  have hself : s'.inode k = { s₁.inode k with
      size := BitVec.ofNat 32 (max (s.size k) (off + r)) } := by rw [hwr.inode, hk]
  have hinum' : (s'.inode k).inum = (s.inode k).inum := by rw [hself, hst.self]
  have hsize : s'.size k = max (s.size k) (off + r) := by
    have hmaxfile : MAXFILE * BSIZE < 2 ^ 32 := by decide
    rw [Fs.size, hself, BitVec.toNat_ofNat, Nat.mod_eq_of_lt (by omega)]
  -- the image is that of the loop, with the new size
  have himg : s'.img = (s₁.work k).setDino (s.inode k).inum (s'.inode k).toDinode := by
    rw [hwr.img, onInode_img, hinum, Fs.work, hst.inum, hwr.inode]
    simp only [Img.setDino, Function.update_idem]
  have hclean : s'.img = s'.work k := by
    rw [Fs.work, hinum', himg]
    simp only [Img.setDino, Function.update_idem]
  have hdino₁ : (s₁.work k).dino (s.inode k).inum = (s₁.inode k).toDinode := by
    rw [← hst.inum, work_dino_self]
  have hslot : ∀ j m, s'.img.slot j m = (s₁.work k).slot j m := fun j m => by
    rw [himg]
    refine Img.slot_setDino ?_ ?_
    · rw [hself, hdino₁]
    · rw [hself, hdino₁]
  have hbyte : ∀ j o, s'.img.byte j o = (s₁.work k).byte j o := fun j o =>
    Img.byte_congr (hslot j) (by rw [himg]; rfl)
  refine ⟨⟨hlogs.trans ?_, fun j hj => ?_, ?_⟩, ?_, hclean, ?_, hsize, ?_, ?_, ?_, ?_, ?_, ?_, ?_⟩
  · rw [← hinum, ← hlogs.sb]
    exact hwr.toLogs
  · rw [hwr.inode, onInode_of_ne hj, hst.others j hj]
  · rw [hself, hst.self]
  · unfold WriteStop at hstop ⊢
    rwa [hwr.sb, hwr.img]
  · rw [himg]
    exact hst.keeps.alloc.congr fun j m => by rw [← himg, hslot]
  · rw [Fs.NoHole, ← hclean, hinum']
    have hd : (s'.img.dino (s.inode k).inum).size.toNat = max (s.size k) (off + r) := by
      rw [hclean, ← hinum', work_dino_self]
      exact hsize
    refine ⟨by omega, fun bn hbn => ?_⟩
    rw [hslot]
    by_cases hlt : bn * BSIZE < off + r
    · exact hmap bn hlt
    · exact hst.keeps.slot_ne_zero (hno.slot_ne (by omega))
  · have hcopy := hst.keeps.dino_self
    rw [work_dino_self, hdino₁] at hcopy
    have htype := congrArg Dinode.type hcopy
    have hmajor := congrArg Dinode.major hcopy
    have hminor := congrArg Dinode.minor hcopy
    have hnlink := congrArg Dinode.nlink hcopy
    rw [hself]
    exact Dinode.ext htype hmajor hminor hnlink rfl rfl
  · intro j m hne
    rw [hslot, hst.keeps.slot _ _ hne]
  · intro j m hj
    rw [hslot, hst.keeps.slot_other j m hj]
  · intro j hj
    rw [himg, Img.setDino_of_ne hj, hst.keeps.dino j hj]
  · intro j o
    rw [hbyte, hst.byte]
  · intro x hx
    rcases List.mem_append.mp hx with hx | hx
    · refine Or.inr ?_
      have := hst.logged x hx
      unfold WriteLog at this ⊢
      simp only [← hclean, hslot]
      exact this
    · exact Or.inl (List.mem_singleton.mp hx)

/-- **`writei`** overwrites the bytes of the inode from `off` on with the first bytes of the source. -/
lemma writei_spec (src : Buffer) {off n : ℕ} (hoff : off < 2 ^ 32) (hn : n < 2 ^ 32) :
    wp (writei k src off n) (fun r s' =>
        if WriteRefused s k off n then r = -1 ∧ s' = s
        else ∃ r' t B, r = (r' : ℕ) ∧ Written s s' k src off n r' t B)
      (fun e => ¬WriteRefused s k off n ∧ Full s (6 * blocksOf off n + 1) e) s := by
  have hsize : (s.inode k).size.toNat = s.size k := rfl
  have hmax := hno.size_le
  unfold writei
  simp only [wp_bind, wp_get, hsize]
  by_cases hbad : WriteRefused s k off n
  · simp only [if_pos hbad]
    unfold WriteRefused at hbad
    by_cases h₁ : off > s.size k ∨ (off + n) % 2 ^ 32 < off
    · rw [wp_ite_pos h₁]
      exact ⟨rfl, rfl⟩
    · rw [wp_ite_neg h₁, wp_ite_pos (by omega)]
      exact ⟨rfl, rfl⟩
  · simp only [if_neg hbad]
    have hok := hbad
    unfold WriteRefused at hbad
    rw [wp_ite_neg (by omega), wp_ite_neg (by omega), wp_bind]
    have hloop := writeiLoop_spec hw htrans src (n := n) (by omega) n 0 (off / BSIZE)
      (by omega) (by omega) s [] (Overwrote.refl hw) (fun _ => rfl)
      (by
        have hbs : BSIZE = 1024 := rfl
        rw [hbs]
        omega)
      fun bn hbn => hno.slot_ne (by omega)
    rw [Nat.add_zero] at hloop
    refine hloop.mono ?_ fun e he => ⟨hok, he.mono (Nat.le_succ _)⟩
    rintro r s₁ ⟨t, B, hst, hstop, hmap⟩
    have hfew := hst.few
    have hfull : ∀ e, Full s (B.length + 1) e →
        ¬WriteRefused s k off n ∧ Full s (6 * blocksOf off n + 1) e := fun e he =>
      ⟨hok, he.mono (Nat.succ_le_succ hfew)⟩
    have hsize₁ := hst.keeps.size_eq (s.inode k).inum
    rw [work_dino_self, ← hst.inum, work_dino_self] at hsize₁
    by_cases hgrow : off + r > s.size k
    · rw [wp_ite_pos hgrow]
      simp only [wp_bind, wp_setInode]
      refine (writei_end hw htrans hno (by omega) hst hstop hmap _ ?_).mono
        (fun _ s' hwr => ⟨r, t, _, rfl, hwr⟩) hfull
      rw [max_eq_right hgrow.le]
    · rw [wp_ite_neg hgrow]
      simp only [wp_bind]
      have hid : s₁ = s₁.onInode k id := by
        rw [Fs.onInode, id, Function.update_eq_self]
      rw [hid]
      refine (writei_end hw htrans hno (by omega) hst hstop hmap _ ?_).mono
        (fun _ s' hwr => ⟨r, t, _, rfl, hwr⟩) hfull
      rw [max_eq_left (by omega), Fs.size, ← hsize₁, BitVec.ofNat_toNat, BitVec.setWidth_eq]
      rfl

end Writei

end Xv6
