import Xv6.Fs.Files
import Xv6.Fs.Room
import Xv6.Fs.Table
import Xv6.Lib.Slots

/-!
# Directories

The contents of a directory are a table of entries, in the sense of `Xv6.Lib.Slots`: an entry with
inode number 0 is free, and the key of an entry is its name, cut off after `DIRSIZ` characters.
`dirlookup` is the scan for a key and `dirlink` stores in the first free slot.
-/

namespace Xv6

/-- The entry that the bytes of a `struct dirent` stand for. -/
def direntEntry (de : Bytes) : Option (List Byte × ℕ) :=
  if (de.get16 0).toNat = 0 then none else some (cname (direntName de), (de.get16 0).toNat)

/-- Entry `i` of a directory. -/
def Fs.entry (s : Fs) (k : ℕ) : Slots (List Byte) ℕ :=
  fun i => direntEntry fun j => s.byte k (DIRENT * i + j)

/-- The number of entries of a directory, the free ones included. -/
def Fs.entries (s : Fs) (k : ℕ) : ℕ := s.size k / DIRENT

/-- The entry with a name, and its inode number. -/
def Fs.lookup (s : Fs) (k : ℕ) (name : List Byte) : Option (ℕ × ℕ) :=
  (s.entry k).find (s.entries k) name

/-- Where the next entry goes. -/
def Fs.freeEntry (s : Fs) (k : ℕ) : ℕ := (s.entry k).free (s.entries k)

/-- Inode `k` is a directory, which can be worked on. -/
structure IsDir (s : Fs) (k : ℕ) : Prop where
  working : Working s k
  noHole : s.NoHole k
  ref : 0 < (s.inode k).ref
  type : (s.inode k).type = T_DIR
  size : s.size k = DIRENT * s.entries k

lemma direntEntry_congr {de de' : Bytes} (h : ∀ j < DIRENT, de j = de' j) :
    direntEntry de = direntEntry de' := by
  have hde : DIRENT = 16 := rfl
  have hdir : DIRSIZ = 14 := rfl
  have hget : de.get16 0 = de'.get16 0 := Bytes.get16_congr fun j _ hj => h j (by omega)
  have hname : cname (direntName de) = cname (direntName de') :=
    cstring_congr fun j _ hj => h (2 + j) (by omega)
  rw [direntEntry, direntEntry, hget, hname]

lemma direntEntry_dirent {inum : ℕ} (hpos : 0 < inum) (hlt : inum < 2 ^ 16) (name : Bytes) :
    direntEntry (dirent inum name) = some (cname name, inum) := by
  have hnum : ((dirent inum name).get16 0).toNat = inum := by
    rw [get16_dirent, BitVec.toNat_ofNat, Nat.mod_eq_of_lt hlt]
  rw [direntEntry, hnum, if_neg (by omega), cname_direntName]

lemma direntEntry_zero : direntEntry (fun _ => 0) = none := rfl

section Same

variable {s s' : Fs} {k : ℕ}

/-- What a directory is depends on its inode and the image only. -/
lemma Fs.byte_congr (himg : s'.img = s.img) (hk : s'.inode k = s.inode k) :
    s'.byte k = s.byte k := by
  rw [byte, byte, work, work, himg, hk]

lemma IsDir.congr (h : IsDir s k) (himg : s'.img = s.img) (hsb : s'.sb = s.sb)
    (hk : s'.inode k = s.inode k) : IsDir s' k := by
  have hwork : s'.work k = s.work k := by rw [Fs.work, Fs.work, himg, hk]
  obtain ⟨⟨h₁, h₂, h₃, h₄⟩, h₅, h₆, h₇, h₈⟩ := h
  refine ⟨⟨?_, ?_, ?_, ?_⟩, ?_, ?_, ?_, ?_⟩
  all_goals simp only [Fs.NoHole, Fs.size, Fs.entries, hwork, hsb, hk] at *
  all_goals assumption

end Same

/-! ## Looking up names -/

/-- The entry that is read. -/
lemma direntEntry_read (s : Fs) (k i : ℕ) :
    direntEntry (Bytes.blit (fun _ => 0) 0 (s.byte k) (DIRENT * i) DIRENT) = s.entry k i :=
  direntEntry_congr fun j hj => by
    rw [Bytes.blit_of_mem (by omega), Nat.sub_zero]

section Lookup

variable {s : Fs} {k : ℕ} (hd : IsDir s k)

include hd

/-- Reading an entry. -/
lemma readDirent_spec {i : ℕ} (hi : i < s.entries k) : Returns (readDirent k (DIRENT * i))
    (fun r s' => s' = s ∧ r = some (Bytes.blit (fun _ => 0) 0 (s.byte k) (DIRENT * i) DIRENT)) s := by
  have hde : DIRENT = 16 := rfl
  have hsize := hd.size
  have hmax := hd.noHole.size_le
  have hmaxfile : MAXFILE * BSIZE < 2 ^ 31 := by decide
  rw [hde] at hsize
  have hoff : DIRENT * i < 2 ^ 32 := by
    rw [hde]
    omega
  unfold Returns readDirent
  rw [wp_bind]
  refine (readi_spec hd.working hd.noHole {} hoff (n := DIRENT) (by decide)).imp ?_
  rintro r s' ⟨rfl, hr⟩
  have hend : min (DIRENT * i + DIRENT) (s'.size k) - DIRENT * i = DIRENT := by
    rw [hde]
    omega
  unfold ReadiPost at hr
  rw [if_neg (by rw [hde]; omega), hend] at hr
  rcases hr with rfl | ⟨⟨t, m, hstop⟩, -⟩
  · rw [wp_pure, if_pos rfl]
    exact ⟨rfl, rfl⟩
  · exact absurd rfl hstop

/-- A loop over a directory goes on at entry `i`, and reads it. -/
lemma exists_dirent {i : ℕ} (hi : i < s.entries k) : ∃ de, ¬DIRENT * i ≥ (s.inode k).size.toNat ∧
    readDirent k (DIRENT * i) s = .ok (some de, s) ∧ direntEntry de = s.entry k i := by
  obtain ⟨_, _, hread, rfl, rfl⟩ := (readDirent_spec hd hi).exists_eq
  refine ⟨_, ?_, hread, direntEntry_read _ k i⟩
  have hde : DIRENT = 16 := rfl
  have hsize := hd.size
  rw [Fs.size, hde] at hsize
  rw [hde]
  omega

variable {Q : Option (ℕ × ℕ) → Fs → Prop} {E : String → Prop}

/-- The loop of `dirlookup` is the scan for the name. -/
lemma wp_dirlookupLoop (name : Bytes) (n i : ℕ) (hn : i + n = s.entries k) :
    wp (dirlookupLoop k name n (DIRENT * i)) Q E s ↔
      match (s.entry k).findFrom (cname name) n i with
      | none => Q none s
      | some (j, inum) => wp (iget inum) (fun ip s' => Q (some (ip, DIRENT * j)) s') E s := by
  induction n generalizing i with
  | zero => exact Iff.rfl
  | succ n ih =>
    obtain ⟨de, hlt, hread, hentry⟩ := exists_dirent hd (show i < s.entries k by omega)
    have hnext : DIRENT * i + DIRENT = DIRENT * (i + 1) := by rw [Nat.mul_succ]
    have hstep : wp (dirlookupLoop k name (n + 1) (DIRENT * i)) Q E s ↔
        wp (if (de.get16 0).toNat = 0 then dirlookupLoop k name n (DIRENT * i + DIRENT)
          else if namecmp name (direntName de) = 0 then do
            return some (← iget (de.get16 0).toNat, DIRENT * i)
          else dirlookupLoop k name n (DIRENT * i + DIRENT)) Q E s := by
      rw [dirlookupLoop]
      simp only [wp_bind, wp_get]
      rw [wp_ite_neg hlt, wp_bind]
      conv_lhs => rw [wp, hread]
    rw [hstep, hnext]
    rw [direntEntry] at hentry
    by_cases h0 : (de.get16 0).toNat = 0
    · rw [if_pos h0] at hentry
      rw [wp_ite_pos h0, ih (i + 1) (by omega),
        Slots.findFrom_skip fun v hv => by simp [← hentry] at hv]
    · rw [if_neg h0] at hentry
      rw [wp_ite_neg h0]
      by_cases hname : namecmp name (direntName de) = 0
      · rw [namecmp_eq_zero_iff] at hname
        rw [wp_ite_pos ((namecmp_eq_zero_iff _ _).mpr hname),
          Slots.findFrom_hit (v := (de.get16 0).toNat) (by rw [← hentry, hname])]
        simp only [wp_bind, wp_pure]
      · rw [wp_ite_neg hname, ih (i + 1) (by omega), Slots.findFrom_skip]
        intro v hv
        rw [← hentry] at hv
        exact hname ((namecmp_eq_zero_iff _ _).mpr (Prod.mk.inj (Option.some.inj hv)).1.symm)

/-- **`dirlookup`** takes a reference to the inode of the entry with the name. -/
lemma wp_dirlookup (name : Bytes) :
    wp (dirlookup k name) Q E s ↔
      match s.lookup k (cname name) with
      | none => Q none s
      | some (i, inum) => wp (iget inum) (fun ip s' => Q (some (ip, DIRENT * i)) s') E s := by
  have hde : DIRENT = 16 := rfl
  have hcount : entriesOf (s.inode k).size.toNat = s.entries k := by
    change entriesOf (s.size k) = s.entries k
    rw [entriesOf, hd.size, hde]
    omega
  unfold dirlookup
  simp only [wp_bind, wp_get]
  rw [wp_ite_neg (not_not.mpr hd.type), hcount]
  exact wp_dirlookupLoop hd name (s.entries k) 0 (Nat.zero_add _)

/-- The loop of `dirlink` looks for the first free entry. -/
lemma wp_dirlinkLoop {Q : ℕ → Fs → Prop} (n i : ℕ)
    (hn : i + n = s.entries k) : wp (dirlinkLoop k n (DIRENT * i)) Q E s ↔
      Q (DIRENT * (s.entry k).freeFrom n i) s := by
  induction n generalizing i with
  | zero => exact Iff.rfl
  | succ n ih =>
    obtain ⟨de, hlt, hread, hentry⟩ := exists_dirent hd (show i < s.entries k by omega)
    have hstep : wp (dirlinkLoop k (n + 1) (DIRENT * i)) Q E s ↔
        wp (if de.get16 0 = 0 then return DIRENT * i
          else dirlinkLoop k n (DIRENT * i + DIRENT)) Q E s := by
      rw [dirlinkLoop]
      simp only [wp_bind, wp_get]
      rw [wp_ite_neg hlt, wp_bind]
      conv_lhs => rw [wp, hread]
    have hzero : de.get16 0 = 0 ↔ (de.get16 0).toNat = 0 :=
      ⟨fun h => by rw [h]; rfl, fun h => BitVec.eq_of_toNat_eq h⟩
    rw [hstep, Slots.freeFrom]
    rw [direntEntry] at hentry
    by_cases h0 : de.get16 0 = 0
    · rw [if_pos (hzero.mp h0)] at hentry
      rw [wp_ite_pos h0, wp_pure, ← hentry, if_pos Option.isNone_none]
    · rw [if_neg (hzero.not.mp h0)] at hentry
      rw [wp_ite_neg h0, ← hentry, if_neg (by simp), ← Nat.mul_succ]
      exact ih (i + 1) (by omega)

end Lookup

/-! ## Changing entries -/

section Change

variable {s s' : Fs} {k : ℕ}

/-- The bytes of one entry have been overwritten. -/
structure EntrySet (s s' : Fs) (k i : ℕ) (de : Bytes) : Prop where
  dir : IsDir s' k
  size : s'.size k = max (s.size k) (DIRENT * i + DIRENT)
  byte : ∀ o, s'.byte k o =
    if DIRENT * i ≤ o ∧ o < DIRENT * i + DIRENT then de (o - DIRENT * i) else s.byte k o

variable {i : ℕ} {de : Bytes}

lemma EntrySet.entry_self (h : EntrySet s s' k i de) :
    s'.entry k i = direntEntry de :=
  direntEntry_congr fun j hj => by
    rw [h.byte, if_pos ⟨by omega, by omega⟩, Nat.add_sub_cancel_left]

lemma EntrySet.entry_of_ne {j : ℕ} (h : EntrySet s s' k i de) (hj : j ≠ i) :
    s'.entry k j = s.entry k j := by
  have hde : DIRENT = 16 := rfl
  refine direntEntry_congr fun o ho => ?_
  rw [h.byte, if_neg]
  rw [hde] at ho ⊢
  omega

lemma EntrySet.entries (hd : IsDir s k) (h : EntrySet s s' k i de) :
    s'.entries k = max (s.entries k) (i + 1) := by
  have hde : DIRENT = 16 := rfl
  have := h.size
  have := hd.size
  unfold Fs.entries at *
  rw [hde] at *
  omega

/-- A new entry is in its slot. -/
lemma EntrySet.store {inum : ℕ} {name : Bytes} (hd : IsDir s k)
    (h : EntrySet s s' k i (dirent inum name)) (hpos : 0 < inum) (hlt : inum < 2 ^ 16)
    (hle : i ≤ s.entries k) (hfree : i < s.entries k → s.entry k i = none) :
    (s.entry k).Store (s.entries k) i (cname name) inum (s'.entry k) (s'.entries k) where
  le := hle
  free := hfree
  size := h.entries hd
  self := by rw [h.entry_self, direntEntry_dirent hpos hlt]
  others _ _ hj := h.entry_of_ne hj

lemma EntrySet.clear (h : EntrySet s s' k i fun _ => 0) :
    (s.entry k).Clear (s.entries k) i (s'.entry k) where
  self := by rw [h.entry_self, direntEntry_zero]
  others _ _ hj := h.entry_of_ne hj

/-- A write of `DIRENT` bytes at a multiple of `DIRENT` lies in one block. -/
lemma dirent_block (i : ℕ) : DIRENT * i % BSIZE + DIRENT ≤ BSIZE ∧ blocksOf (DIRENT * i) DIRENT = 1 := by
  have hde : DIRENT = 16 := rfl
  have hbs : BSIZE = 1024 := rfl
  unfold blocksOf
  rw [hde, hbs]
  omega

/-- The directory after a write. -/
lemma IsDir.written {r t : ℕ} {src : Bytes} {B : List ℕ} (hd : IsDir s k)
    (h : Written s s' k { byte := src } (DIRENT * i) DIRENT r t B) (hr : r = 0 ∨ r = DIRENT)
    (hi : i ≤ s.entries k) : IsDir s' k ∧ if r = 0 then s'.contents k = s.contents k
      else EntrySet s s' k i src := by
  have hde : DIRENT = 16 := rfl
  have hsize := h.size
  have hsz := hd.size
  have htype : (s'.inode k).type = (s.inode k).type := by rw [h.copy]
  have ht : t = r := by
    rcases h.stop with h | h | ⟨-, -, ⟨m, hstop⟩, -⟩
    · omega
    · omega
    · exact absurd rfl hstop
  have hbyte : ∀ o, s'.byte k o = if DIRENT * i ≤ o ∧ o < DIRENT * i + t then src (o - DIRENT * i)
      else s.byte k o := fun o => by
    rw [Fs.byte, ← h.img, h.inum, h.byte]
    simp only [true_and]
    rfl
  have hentries : s'.size k = DIRENT * s'.entries k := by
    unfold Fs.entries
    rw [hsize, hsz, hde]
    rcases hr with rfl | rfl
    · omega
    · rw [hde]
      omega
  have hdir : IsDir s' k := by
    refine ⟨⟨h.sb ▸ hd.working.sb, ?_, ?_, ?_⟩, h.noHole, ?_, htype.trans hd.type, hentries⟩
    · rw [h.inum, h.sb]
      exact hd.working.inum
    · rw [htype]
      exact hd.working.type
    · rw [← h.img, h.sb]
      exact h.alloc
    · rw [(h.toWorks.inode_fields k).1]
      exact hd.ref
  refine ⟨hdir, ?_⟩
  subst ht
  rcases hr with rfl | rfl
  · rw [if_pos rfl]
    have hsame : s'.size k = s.size k := by
      rw [hsize, hsz, hde]
      rw [hsz, hde] at *
      omega
    refine List.ext_getElem? fun o => ?_
    have hsameByte : s'.byte k o = s.byte k o := by rw [hbyte, if_neg (by omega)]
    rw [Fs.getElem?_contents, Fs.getElem?_contents, hsame, hsameByte]
  · rw [if_neg (by decide)]
    exact ⟨hdir, hsize, hbyte⟩

/-- The directory is full. -/
def Fs.AtMax (s : Fs) (k : ℕ) : Prop := s.freeEntry k = s.entries k ∧ s.size k = MAXFILE * BSIZE

/-- What `dirlink` does. -/
inductive DirLinked (s : Fs) (k : ℕ) (name : Bytes) (inum : ℕ) : ℤ → Fs → Prop
  | present {s' : Fs} (hlook : s.lookup k (cname name) ≠ none) (hlike : Like s s') :
    DirLinked s k name inum (-1) s'
  | atMax (hlook : s.lookup k (cname name) = none) (hmax : s.AtMax k) :
    DirLinked s k name inum (-1) s
  | noBlock {s' : Fs} {B : List ℕ} (hlook : s.lookup k (cname name) = none) (hmax : ¬s.AtMax k)
    (hblock : s.NoBlock k (DIRENT * s.freeEntry k / BSIZE))
    (hw : Written s s' k { byte := dirent inum name } (DIRENT * s.freeEntry k) DIRENT 0 0 B) :
    DirLinked s k name inum (-1) s'
  | stored {s' : Fs} {B : List ℕ} (hlook : s.lookup k (cname name) = none) (hmax : ¬s.AtMax k)
    (hblock : ¬s.NoBlock k (DIRENT * s.freeEntry k / BSIZE))
    (hw : Written s s' k { byte := dirent inum name } (DIRENT * s.freeEntry k) DIRENT DIRENT DIRENT
      B) : DirLinked s k name inum 0 s'

/-- A write of one entry, without faults but those of the log. -/
lemma writei_dirent (hd : IsDir s k) (ht : InTrans s) (src : Bytes) (hi : i ≤ s.entries k)
    (hroom : DIRENT * i + DIRENT ≤ MAXFILE * BSIZE) :
    wp (writei k { byte := src } (DIRENT * i) DIRENT) (fun r s' => ∃ B,
      if s.NoBlock k (DIRENT * i / BSIZE) then
        r = 0 ∧ Written s s' k { byte := src } (DIRENT * i) DIRENT 0 0 B
      else r = DIRENT ∧ Written s s' k { byte := src } (DIRENT * i) DIRENT DIRENT DIRENT B)
      (Full s 7) s := by
  have hde : DIRENT = 16 := rfl
  have hmaxfile : MAXFILE * BSIZE < 2 ^ 31 := by decide
  have hsize := hd.size
  obtain ⟨hin, hblocks⟩ := dirent_block i
  have hok : ¬WriteRefused s k (DIRENT * i) DIRENT := by
    unfold WriteRefused
    rw [hsize, hde]
    rw [hde] at hroom
    omega
  have hspec := writei_spec hd.working ht.trans hd.noHole { byte := src }
    (show DIRENT * i < 2 ^ 32 by omega) (show DIRENT < 2 ^ 32 by decide)
  rw [hblocks] at hspec
  refine (hspec.and (writei_block hd.working ht.trans src (by decide) hin hok)).mono ?_
    fun e he => he.1.2
  rintro r s' ⟨hw, hr⟩
  rw [if_neg hok] at hw
  obtain ⟨r', t, B, rfl, hw⟩ := hw
  have htr : t = r' := by
    rcases hw.stop with h | h | ⟨-, -, ⟨m, hstop⟩, -⟩
    · omega
    · omega
    · exact absurd rfl hstop
  subst htr
  refine ⟨B, ?_⟩
  split at hr
  · obtain rfl : t = 0 := by omega
    rw [if_pos ‹_›]
    exact ⟨rfl, hw⟩
  · obtain rfl : t = DIRENT := by omega
    rw [if_neg ‹_›]
    exact ⟨rfl, hw⟩

/-- **`dirlink`** -/
lemma dirlink_spec (hd : IsDir s k) (ht : InTrans s) (name : Bytes) (inum : ℕ) :
    wp (dirlink k name inum) (fun r s' => DirLinked s k name inum r s')
      (fun e => TableFull s e ∨ Full s 7 e) s := by
  have hde : DIRENT = 16 := rfl
  have hsize := hd.size
  have hmax := hd.noHole.size_le
  have hbound : MAXFILE * BSIZE = DIRENT * 17152 := by decide
  unfold dirlink
  rw [wp_bind, wp_dirlookup hd]
  split
  · next hlook =>
    have hcount : entriesOf (s.inode k).size.toNat = s.entries k := by
      change entriesOf (s.size k) = s.entries k
      rw [entriesOf, hsize, hde]
      omega
    simp only [wp_bind, wp_get]
    rw [hcount]
    refine (wp_dirlinkLoop hd (s.entries k) 0 (Nat.zero_add _)).mpr ?_
    change wp (writei k _ (DIRENT * s.freeEntry k) DIRENT) _ _ s
    have hle : s.freeEntry k ≤ s.entries k := Slots.free_le _ _
    by_cases hfull : s.AtMax k
    · -- the entry would lie behind the largest file
      have hrefused : WriteRefused s k (DIRENT * s.freeEntry k) DIRENT := by
        refine Or.inr (Or.inr ?_)
        rw [hfull.1, ← hsize, hfull.2]
        omega
      have hspec := writei_spec hd.working ht.trans hd.noHole { byte := dirent inum name }
        (show DIRENT * s.freeEntry k < 2 ^ 32 by
          have : MAXFILE * BSIZE < 2 ^ 31 := by decide
          rw [hde] at *
          omega) (show DIRENT < 2 ^ 32 by decide)
      refine hspec.mono ?_ fun e he => absurd hrefused he.1
      intro r s' hr
      rw [if_pos hrefused] at hr
      obtain ⟨rfl, rfl⟩ := hr
      exact .atMax hlook hfull
    · have hroom : DIRENT * s.freeEntry k + DIRENT ≤ MAXFILE * BSIZE := by
        unfold Fs.AtMax at hfull
        rw [hsize, hbound, hde] at hfull hmax
        rw [hbound, hde]
        omega
      refine (writei_dirent hd ht _ hle hroom).mono ?_ fun e he => Or.inr he
      rintro r s' ⟨B, hr⟩
      split at hr
      · next hblock =>
        obtain ⟨rfl, hw⟩ := hr
        exact .noBlock hlook hfull hblock hw
      · next hblock =>
        obtain ⟨rfl, hw⟩ := hr
        exact .stored hlook hfull hblock hw
  · next i j hlook =>
    refine (iget_spec s j).mono ?_ fun e he => Or.inl he
    intro ip s₁ hgot
    rw [wp_bind]
    exact (iput_got hgot).wp.imp fun _ s₂ hlike => .present (by simp [hlook]) hlike

/-- Clearing an entry always succeeds. -/
lemma clearDirent_spec (hd : IsDir s k) (ht : InTrans s) (hi : i < s.entries k) :
    wp (clearDirent k (DIRENT * i)) (fun _ s' => ∃ B,
      Written s s' k {} (DIRENT * i) DIRENT DIRENT DIRENT B) (Full s 7) s := by
  have hde : DIRENT = 16 := rfl
  have hbs : BSIZE = 1024 := rfl
  have hsize := hd.size
  have hmax := hd.noHole.size_le
  have hroom : DIRENT * i + DIRENT ≤ MAXFILE * BSIZE := by
    refine le_trans ?_ hmax
    rw [hsize, hde]
    omega
  have hblock : ¬s.NoBlock k (DIRENT * i / BSIZE) := by
    rw [Fs.NoBlock, Fs.blocksNeeded, if_pos]
    · exact Nat.not_lt_zero _
    · refine hd.noHole.slot_ne ?_
      rw [hsize, hde, hbs]
      omega
  unfold clearDirent
  rw [wp_bind]
  refine (writei_dirent hd ht (fun _ => 0) hi.le hroom).imp ?_
  rintro r s' ⟨B, hr⟩
  rw [if_neg hblock] at hr
  rw [wp_ite_neg (not_not.mpr hr.1)]
  exact ⟨B, hr.2⟩

end Change

end Xv6
