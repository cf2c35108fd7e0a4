import Xv6.Log.Basic

/-!
# The format of the disk

The structures of `kernel/fs.h`, and where they are in a block: the superblock, the on-disk inodes,
the bitmap and the directory entries.  A disk is

    [ boot block | super block | log | inode blocks | free bit map | data blocks ]

The functions of `kernel/string.c` that work on names are here as well.
-/

namespace Xv6

/-- `struct superblock`. -/
structure Superblock where
  magic : ℕ := 0
  size : ℕ := 0  -- size of the file system image, in blocks
  nblocks : ℕ := 0  -- number of data blocks
  ninodes : ℕ := 0
  nlog : ℕ := 0  -- number of log blocks
  logstart : ℕ := 0  -- number of the first log block
  inodestart : ℕ := 0  -- number of the first inode block
  bmapstart : ℕ := 0  -- number of the first free map block
  deriving DecidableEq

namespace Superblock

/-- The superblock that a block holds. -/
def read (b : Block) : Superblock where
  magic := (b.get32 0).toNat
  size := (b.get32 4).toNat
  nblocks := (b.get32 8).toNat
  ninodes := (b.get32 12).toNat
  nlog := (b.get32 16).toNat
  logstart := (b.get32 20).toNat
  inodestart := (b.get32 24).toNat
  bmapstart := (b.get32 28).toNat

variable (sb : Superblock)

/-- `IBLOCK`: the block containing inode `i`. -/
def iblock (i : ℕ) : ℕ := i / IPB + sb.inodestart

/-- `BBLOCK`: the block of the free map containing the bit for block `b`. -/
def bblock (b : ℕ) : ℕ := b / BPB + sb.bmapstart

/-- The first data block. -/
def datastart : ℕ := sb.size - sb.nblocks

end Superblock

/-! ## Inodes -/

/-- `struct dinode`. -/
@[ext] structure Dinode where
  type : BitVec 16 := 0
  major : BitVec 16 := 0  -- `T_DEVICE` only
  minor : BitVec 16 := 0  -- `T_DEVICE` only
  nlink : BitVec 16 := 0  -- number of links to the inode in the file system
  size : BitVec 32 := 0  -- size of the file (bytes)
  addrs : Fin (NDIRECT + 1) → BitVec 32 := fun _ => 0  -- data block addresses

namespace Dinode

/-- The inode at offset `o` of a block. -/
def read (b : Block) (o : ℕ) : Dinode where
  type := b.get16 o
  major := b.get16 (o + 2)
  minor := b.get16 (o + 4)
  nlink := b.get16 (o + 6)
  size := b.get32 (o + 8)
  addrs := fun n => b.get32 (o + 12 + 4 * n)

/-- Store all fields of an inode at offset `o` of a block. -/
def write (d : Dinode) (b : Block) (o : ℕ) : Block :=
  (((((b.put16 o d.type).put16 (o + 2) d.major).put16 (o + 4) d.minor).put16 (o + 6)
    d.nlink).put32 (o + 8) d.size).putWords (o + 12) (List.ofFn d.addrs)

/-- `addrs[n]`. -/
def addr (d : Dinode) (n : ℕ) : ℕ := if h : n < NDIRECT + 1 then (d.addrs ⟨n, h⟩).toNat else 0

/-- `addrs[n] = a`. -/
def setAddr (d : Dinode) (n a : ℕ) : Dinode :=
  { d with addrs := fun i => if i = n then BitVec.ofNat 32 a else d.addrs i }

variable {d : Dinode} {b b' : Block} {o o' i n a : ℕ}

lemma write_of_disjoint (h : i < o ∨ o + 64 ≤ i) : d.write b o i = b i := by
  have hlen : (List.ofFn d.addrs).length = 13 := List.length_ofFn
  rw [write, Bytes.putWords_of_disjoint (by omega), Bytes.put32_of_disjoint (by omega),
    Bytes.put16_of_disjoint (by omega), Bytes.put16_of_disjoint (by omega),
    Bytes.put16_of_disjoint (by omega), Bytes.put16_of_disjoint (by omega)]

lemma read_congr (h : ∀ i, o ≤ i → i < o + 64 → b i = b' i) : read b o = read b' o := by
  have h16 : ∀ p, o ≤ p → p + 2 ≤ o + 64 → b.get16 p = b'.get16 p := fun p _ _ =>
    Bytes.get16_congr fun i _ _ => h i (by omega) (by omega)
  have h32 : ∀ p, o ≤ p → p + 4 ≤ o + 64 → b.get32 p = b'.get32 p := fun p _ _ =>
    Bytes.get32_congr fun i _ _ => h i (by omega) (by omega)
  have haddrs : (fun n : Fin (NDIRECT + 1) => b.get32 (o + 12 + 4 * n)) =
      fun n : Fin (NDIRECT + 1) => b'.get32 (o + 12 + 4 * n) := by
    funext n
    have hn : (n : ℕ) < 13 := n.isLt
    exact h32 _ (by omega) (by omega)
  rw [read, read, h16 o (by omega) (by omega), h16 (o + 2) (by omega) (by omega),
    h16 (o + 4) (by omega) (by omega), h16 (o + 6) (by omega) (by omega),
    h32 (o + 8) (by omega) (by omega), haddrs]

/-- An inode reads back as it was written. -/
lemma read_write (d : Dinode) (b : Block) (o : ℕ) : read (d.write b o) o = d := by
  -- The fields before the addresses, in the order of the stores.
  have hhead : ∀ p, p + 2 ≤ o + 12 → (d.write b o).get16 p =
      (((((b.put16 o d.type).put16 (o + 2) d.major).put16 (o + 4) d.minor).put16 (o + 6)
        d.nlink).put32 (o + 8) d.size).get16 p := fun p hp =>
    Bytes.get16_congr fun i _ _ => Bytes.putWords_of_disjoint (by omega)
  ext1
  · change (d.write b o).get16 o = d.type
    rw [hhead o (by omega), Bytes.get16_put32_of_disjoint (by omega),
      Bytes.get16_put16_of_disjoint (by omega), Bytes.get16_put16_of_disjoint (by omega),
      Bytes.get16_put16_of_disjoint (by omega), Bytes.get16_put16]
  · change (d.write b o).get16 (o + 2) = d.major
    rw [hhead (o + 2) (by omega), Bytes.get16_put32_of_disjoint (by omega),
      Bytes.get16_put16_of_disjoint (by omega), Bytes.get16_put16_of_disjoint (by omega),
      Bytes.get16_put16]
  · change (d.write b o).get16 (o + 4) = d.minor
    rw [hhead (o + 4) (by omega), Bytes.get16_put32_of_disjoint (by omega),
      Bytes.get16_put16_of_disjoint (by omega), Bytes.get16_put16]
  · change (d.write b o).get16 (o + 6) = d.nlink
    rw [hhead (o + 6) (by omega), Bytes.get16_put32_of_disjoint (by omega), Bytes.get16_put16]
  · change (d.write b o).get32 (o + 8) = d.size
    rw [← Bytes.get32_put32 ((((b.put16 o d.type).put16 (o + 2) d.major).put16 (o + 4)
      d.minor).put16 (o + 6) d.nlink) (o + 8) d.size]
    exact Bytes.get32_congr fun i _ _ => Bytes.putWords_of_disjoint (by omega)
  · funext n
    have hn : (n : ℕ) < (List.ofFn d.addrs).length := List.length_ofFn ▸ n.isLt
    change (d.write b o).get32 (o + 12 + 4 * n) = d.addrs n
    rw [write, Bytes.get32_putWords _ _ _ hn, List.getElem_ofFn]

/-- An inode keeps its value when another one is written. -/
lemma read_write_of_disjoint (h : o' + 64 ≤ o ∨ o + 64 ≤ o') : read (d.write b o) o' = read b o' :=
  read_congr fun _ _ _ => write_of_disjoint (by omega)

lemma addr_setAddr (hn : n < NDIRECT + 1) (ha : a < 2 ^ 32) (m : ℕ) :
    (d.setAddr n a).addr m = if m = n then a else d.addr m := by
  unfold addr
  by_cases hm : m < NDIRECT + 1
  · rw [dif_pos hm, dif_pos hm]
    change (if m = n then BitVec.ofNat 32 a else d.addrs ⟨m, hm⟩).toNat = _
    split
    · rw [BitVec.toNat_ofNat, Nat.mod_eq_of_lt ha]
    · rfl
  · rw [dif_neg hm, dif_neg hm, if_neg (by omega)]

lemma read_zero (o : ℕ) : read (fun _ => 0) o = {} := by
  have h16 : ∀ p, Bytes.get16 (fun _ => 0) p = 0 := fun _ => Bytes.get16_eq_zero fun _ _ _ => rfl
  have h32 : ∀ p, Bytes.get32 (fun _ => 0) p = 0 := fun _ => Bytes.get32_eq_zero fun _ _ _ => rfl
  simp only [read, h16, h32]

end Dinode

/-! ## Names -/

/-- `strncmp(p + i, q + i, n)`. -/
def strncmpAt (p q : Bytes) : ℕ → ℕ → ℤ
  | 0, _ => 0
  | n + 1, i =>
    if p i ≠ 0 ∧ p i = q i then strncmpAt p q n (i + 1) else (p i).toNat - (q i).toNat

/-- `strncmp`. -/
def strncmp (p q : Bytes) (n : ℕ) : ℤ := strncmpAt p q n 0

/-- `strncpy(s + i, t + i, n)`. -/
def strncpyAt (s t : Bytes) : ℕ → ℕ → Bytes
  | 0, _ => s
  | n + 1, i =>
    if t i ≠ 0 then strncpyAt (Function.update s i (t i)) t n (i + 1)
    else s.fill i (n + 1) 0

/-- `strncpy`. -/
def strncpy (s t : Bytes) (n : ℕ) : Bytes := strncpyAt s t n 0

/-- The C string in a buffer of `n` characters from the offset `o` on, which need not end in a
NUL. -/
def cstring (b : Bytes) (o n : ℕ) : List Byte :=
  ((List.range' o n).map b).takeWhile (· ≠ 0)

/-- The name that a buffer of `DIRSIZ` characters holds. -/
def cname (b : Bytes) : List Byte := cstring b 0 DIRSIZ

/-- The memory of a C string. -/
def cbytes (l : List Byte) : Bytes := fun i => l.getD i 0

/-- `namecmp`. -/
def namecmp (s t : Bytes) : ℤ := strncmp s t DIRSIZ

/-- `struct dirent` with the name that `strncpy` leaves. -/
def dirent (inum : ℕ) (name : Bytes) : Bytes :=
  Bytes.put16 (fun i => strncpy (fun _ => 0) name DIRSIZ (i - 2)) 0 (BitVec.ofNat 16 inum)

/-- `de->name` of a directory entry. -/
def direntName (de : Bytes) : Bytes := fun i => de (2 + i)

section Names

variable {p q s t : Bytes} {n i : ℕ}

lemma cstring_succ (b : Bytes) (o n : ℕ) :
    cstring b o (n + 1) = if b o ≠ 0 then b o :: cstring b (o + 1) n else [] := by
  rw [cstring, List.range'_succ, List.map_cons, List.takeWhile_cons]
  simp only [decide_eq_true_eq, cstring]

/-- `strncmp` compares C strings. -/
lemma strncmpAt_eq_zero_iff (p q : Bytes) (n i : ℕ) :
    strncmpAt p q n i = 0 ↔ cstring p i n = cstring q i n := by
  induction n generalizing i with
  | zero => simp [strncmpAt, cstring]
  | succ n ih =>
    rw [strncmpAt, cstring_succ, cstring_succ]
    by_cases hp : p i = 0
    · rw [if_neg (by simp [hp]), if_neg (by simpa using hp)]
      by_cases hq : q i = 0
      · simp [hp, hq]
      · have hne : (q i).toNat ≠ 0 := fun h => hq (BitVec.eq_of_toNat_eq (by simpa using h))
        rw [hp, if_pos hq]
        exact iff_of_false (by simp; omega) (by simp)
    · by_cases hpq : p i = q i
      · have hq : q i ≠ 0 := hpq ▸ hp
        rw [if_pos ⟨hp, hpq⟩, if_pos hp, if_pos hq, ih, hpq]
        simp
      · have hne : (p i).toNat ≠ (q i).toNat := fun h => hpq (BitVec.eq_of_toNat_eq h)
        rw [if_neg (fun h => hpq h.2), if_pos hp]
        refine iff_of_false (by omega) fun heq => ?_
        split at heq
        · exact hpq (List.cons.inj heq).1
        · exact absurd heq (by simp)

/-- `namecmp` identifies names with the same first `DIRSIZ` characters up to a NUL. -/
lemma namecmp_eq_zero_iff (s t : Bytes) : namecmp s t = 0 ↔ cname s = cname t :=
  strncmpAt_eq_zero_iff s t DIRSIZ 0

lemma cstring_congr {o : ℕ} (h : ∀ i, o ≤ i → i < o + n → p i = q i) :
    cstring p o n = cstring q o n := by
  unfold cstring
  congr 1
  refine List.map_congr_left fun i hi => ?_
  rw [List.mem_range'_1] at hi
  exact h i hi.1 hi.2

lemma strncpyAt_of_lt {j : ℕ} (h : j < i) : strncpyAt s t n i j = s j := by
  induction n generalizing s i with
  | zero => rfl
  | succ n ih =>
    rw [strncpyAt]
    split
    · rw [ih (by omega), Function.update_of_ne (by omega)]
    · exact Bytes.fill_of_notMem (by omega)

/-- `strncpy` copies the C string. -/
lemma cstring_strncpyAt (s t : Bytes) (n i : ℕ) :
    cstring (strncpyAt s t n i) i n = cstring t i n := by
  induction n generalizing s i with
  | zero => rfl
  | succ n ih =>
    rw [cstring_succ, cstring_succ, strncpyAt]
    by_cases ht : t i = 0
    · have hfill : s.fill i (n + 1) 0 i = 0 := Bytes.fill_of_mem (by omega)
      rw [ht, if_neg (not_not.mpr rfl), hfill, if_neg (not_not.mpr rfl), if_neg (not_not.mpr rfl)]
    · have hself : strncpyAt (Function.update s i (t i)) t n (i + 1) i = t i := by
        rw [strncpyAt_of_lt (Nat.lt_succ_self i), Function.update_self]
      rw [if_pos ht, if_pos ht, hself, if_pos ht, ih]

lemma get16_dirent (inum : ℕ) (name : Bytes) :
    (dirent inum name).get16 0 = BitVec.ofNat 16 inum := Bytes.get16_put16 ..

/-- The name of a directory entry is the one it was made with. -/
lemma cname_direntName (inum : ℕ) (name : Bytes) :
    cname (direntName (dirent inum name)) = cname name := by
  refine Eq.trans ?_ (cstring_strncpyAt (fun _ => 0) name DIRSIZ 0)
  refine cstring_congr fun i _ _ => ?_
  rw [direntName, dirent, Bytes.put16_of_disjoint (by omega), Nat.add_sub_cancel_left]
  rfl

end Names

end Xv6
