import Xv6.Fs.Disk
import Xv6.Lib.Hoare

/-!
# The file system: state and code

`kernel/fs.c`, with the functions of `kernel/log.c` that it calls, for calls that run one at a time.
Where a process would wait for another one, which cannot happen then, the code stops with the fault
`sleep`; all other faults are the panics of the source.

The buffer cache is the map `log.blk` from block numbers to contents; locks and reference counts of
buffers are left out.  There is one device, so that device numbers are left out too.  An inode
pointer is an index of the inode table, and a pointer that may be null is an option.

So `bread` cannot fail here, while that of the source panics with `bget: no buffers` when all `NBUF`
buffers are in use.  A logged block keeps its buffer until the commit, and apart from those the code
holds at most two buffers at a time: the model is right for transactions that log at most `NBUF - 2`
blocks.  A write to at most four blocks of an inode, as `filewrite` and `dirlink` make them, logs at
most 25.
-/

namespace Xv6

/-- `struct inode`, the in-memory copy of an inode. -/
structure Inode extends Dinode where
  inum : ℕ := 0  -- inode number
  ref : ℤ := 0  -- reference count
  locked : Bool := false  -- `lock`, which protects everything below
  valid : Bool := false  -- inode has been read from disk?

structure Fs where
  log : LogState
  sb : Superblock
  inode : ℕ → Inode := fun _ => {}  -- `itable.inode`

abbrev FsM := StateT Fs (Except String)

/-! ## `kernel/log.c` -/

/-- Called at the start of each file system call. -/
def beginOp : FsM Unit := do
  let l := (← get).log
  if l.committing then throw "sleep"
  if (l.lh.length : ℤ) + (l.outstanding + 1) * MAXOPBLOCKS > LOGBLOCKS then throw "sleep"
  modify fun s => { s with log := { s.log with outstanding := l.outstanding + 1 } }

/-- The log after the commit of the last outstanding operation. -/
def LogState.finish (l : LogState) : LogState :=
  let l := l.commit
  { l with ncommit := l.ncommit + 1 }

/-- Called at the end of each file system call; commits if this was the last one. -/
def endOp : FsM Unit := do
  modify fun s => { s with log := { s.log with outstanding := s.log.outstanding - 1 } }
  let l := (← get).log
  if l.committing then throw "log.committing"
  if l.outstanding = 0 then
    modify fun s => { s with log := l.finish }

/-- `bread`: the contents of a block. -/
def bread (b : ℕ) : FsM Block := return (← get).log.blk b

/-- Add a block to a transaction. -/
def LogState.addBlock (l : LogState) (b : ℕ) : LogState :=
  if b ∈ l.lh then l  -- log absorption
  else { l.bpin b with lh := l.lh ++ [b] }

/-- The caller has changed the contents of block `b` to `data` and calls `log_write`. -/
def logWrite (b : ℕ) (data : Block) : FsM Unit := do
  modify fun s => { s with log := { s.log with blk := Function.update s.log.blk b data } }
  let l := (← get).log
  if l.lh.length ≥ LOGBLOCKS then throw "too big a transaction"
  if l.outstanding < 1 then throw "log_write outside of trans"
  modify fun s => { s with log := l.addBlock b }

/-! ## Blocks -/

/-- Zero a block. -/
def bzero (bno : ℕ) : FsM Unit := do
  let data ← bread bno
  logWrite bno (data.fill 0 BSIZE 0)

/-- The loop of `balloc` over the blocks of the bitmap, from the one for block `b` on. -/
def ballocLoop : ℕ → ℕ → FsM ℕ
  | 0, _ => return 0  -- out of blocks
  | n + 1, b => do
    let sb := (← get).sb
    let data ← bread (sb.bblock b)
    match (List.range (min BPB (sb.size - b))).find? fun bi => !data.bit bi with
    | some bi =>
      logWrite (sb.bblock b) (data.setBit bi)
      bzero (b + bi)
      return b + bi
    | none => ballocLoop n (b + BPB)

/-- Allocate a zeroed disk block; 0 if out of disk space. -/
def balloc : FsM ℕ := do
  ballocLoop (((← get).sb.size + BPB - 1) / BPB) 0

/-- Free a disk block. -/
def bfree (b : ℕ) : FsM Unit := do
  let sb := (← get).sb
  let data ← bread (sb.bblock b)
  if !data.bit (b % BPB) then throw "freeing free block"
  logWrite (sb.bblock b) (data.clearBit (b % BPB))

/-! ## Inodes -/

/-- The offset of an inode in its block. -/
def inodeOffset (inum : ℕ) : ℕ := 64 * (inum % IPB)

/-- Change an entry of the inode table. -/
def setInode (ip : ℕ) (f : Inode → Inode) : FsM Unit :=
  modify fun s => { s with inode := Function.update s.inode ip (f (s.inode ip)) }

/-- Find the inode with number `inum` and return the in-memory copy.  Does not lock the inode and does
not read it from disk. -/
def iget (inum : ℕ) : FsM ℕ := do
  let s ← get
  -- Is the inode already in the table?
  match (List.range NINODE).find? fun ip => 0 < (s.inode ip).ref ∧ (s.inode ip).inum = inum with
  | some ip =>
    setInode ip fun x => { x with ref := x.ref + 1 }
    return ip
  | none =>
    -- Recycle an inode entry.
    match (List.range NINODE).find? fun ip => (s.inode ip).ref = 0 with
    | none => throw "iget: no inodes"
    | some ip =>
      setInode ip fun x => { x with inum := inum, ref := 1, valid := false }
      return ip

/-- Copy a modified in-memory inode to disk. -/
def iupdate (ip : ℕ) : FsM Unit := do
  let s ← get
  let x := s.inode ip
  let data ← bread (s.sb.iblock x.inum)
  logWrite (s.sb.iblock x.inum) (x.toDinode.write data (inodeOffset x.inum))

/-- Increment the reference count of an inode. -/
def idup (ip : ℕ) : FsM ℕ := do
  setInode ip fun x => { x with ref := x.ref + 1 }
  return ip

/-- `acquiresleep(&ip->lock)`. -/
def acquiresleep (ip : ℕ) : FsM Unit := do
  if ((← get).inode ip).locked then throw "sleep"
  setInode ip fun x => { x with locked := true }

/-- `releasesleep(&ip->lock)`. -/
def releasesleep (ip : ℕ) : FsM Unit := setInode ip fun x => { x with locked := false }

/-- Lock the given inode, and read it from disk if necessary. -/
def ilock (ip : ℕ) : FsM Unit := do
  if ((← get).inode ip).ref < 1 then throw "ilock"
  acquiresleep ip
  let s ← get
  if !(s.inode ip).valid then
    let data ← bread (s.sb.iblock (s.inode ip).inum)
    let d := Dinode.read data (inodeOffset (s.inode ip).inum)
    setInode ip fun x => { x with toDinode := d, valid := true }
    if d.type = 0 then throw "ilock: no type"

/-- Unlock the given inode. -/
def iunlock (ip : ℕ) : FsM Unit := do
  let x := (← get).inode ip
  if !x.locked ∨ x.ref < 1 then throw "iunlock"
  releasesleep ip

/-- Mark the on-disk inode free. -/
def ifree (inum : ℕ) : FsM Unit := do
  let sb := (← get).sb
  let data ← bread (sb.iblock inum)
  logWrite (sb.iblock inum) (data.put16 (inodeOffset inum) 0)

/-! ## Inode content -/

/-- `ip->addrs[n] = a`. -/
def setAddr (ip n a : ℕ) : FsM Unit := setInode ip fun x => { x with toDinode := x.setAddr n a }

/-- `ip->addrs[n]`, allocating a block if there is none; 0 if out of disk space. -/
def bmapAddr (ip n : ℕ) : FsM ℕ := do
  let addr := ((← get).inode ip).addr n
  if addr ≠ 0 then return addr
  let addr ← balloc
  if addr = 0 then return 0
  setAddr ip n addr
  return addr

/-- The disk block address of the block `bn` of an inode; if there is none, one is allocated, and the
result is 0 if out of disk space. -/
def bmap (ip bn : ℕ) : FsM ℕ := do
  if bn < NDIRECT then bmapAddr ip bn
  else if bn - NDIRECT < NINDIRECT then
    -- Load indirect block, allocating if necessary.
    let ind ← bmapAddr ip NDIRECT
    if ind = 0 then return 0
    let data ← bread ind
    let addr := (data.get32 (4 * (bn - NDIRECT))).toNat
    if addr ≠ 0 then return addr
    let addr ← balloc
    if addr ≠ 0 then
      -- the buffer of the indirect block has been held all the time
      let data ← bread ind
      logWrite ind (data.put32 (4 * (bn - NDIRECT)) (BitVec.ofNat 32 addr))
    return addr
  else throw "bmap: out of range"

/-- The loop of `itrunc` over the direct blocks from `i` on. -/
def itruncDirect (ip : ℕ) : ℕ → ℕ → FsM Unit
  | 0, _ => return
  | n + 1, i => do
    let addr := ((← get).inode ip).addr i
    if addr ≠ 0 then
      bfree addr
      setAddr ip i 0
    itruncDirect ip n (i + 1)

/-- The loop of `itrunc` over the entries of the indirect block from `j` on. -/
def itruncIndirect (a : Block) : ℕ → ℕ → FsM Unit
  | 0, _ => return
  | n + 1, j => do
    let addr := (a.get32 (4 * j)).toNat
    if addr ≠ 0 then bfree addr
    itruncIndirect a n (j + 1)

/-- Truncate inode (discard contents). -/
def itrunc (ip : ℕ) : FsM Unit := do
  itruncDirect ip NDIRECT 0
  let ind := ((← get).inode ip).addr NDIRECT
  if ind ≠ 0 then
    let a ← bread ind
    itruncIndirect a NINDIRECT 0
    bfree ind
    setAddr ip NDIRECT 0
  setInode ip fun x => { x with size := 0 }
  iupdate ip

/-- Drop a reference to an in-memory inode.  If that was the last reference and the inode has no links
to it, free the inode and its content on disk. -/
def iput (ip : ℕ) : FsM Unit := do
  let x := (← get).inode ip
  let last := x.ref = 1 ∧ x.valid ∧ x.nlink = 0
  if last then
    acquiresleep ip
    itrunc ip
    setInode ip fun x => { x with valid := false }
    releasesleep ip
  setInode ip fun x => { x with ref := x.ref - 1 }
  if last then ifree x.inum

/-- Unlock, then put. -/
def iunlockput (ip : ℕ) : FsM Unit := do
  iunlock ip
  iput ip

/-- The far end of a copy between the kernel and a buffer.  When `m` bytes are copied from or to offset
`o` of the buffer, `stops o m` says whether the copy fails, and after how many bytes.  It never fails
for a buffer in the kernel. -/
structure Buffer where
  byte : Bytes := fun _ => 0
  stops : ℕ → ℕ → Option ℕ := fun _ _ => none

/-- The loop of `readi`: the number of bytes read and the contents of the destination. -/
def readiLoop (ip : ℕ) (stops : ℕ → ℕ → Option ℕ) (n : ℕ) : ℕ → Bytes → ℕ → ℕ → FsM (ℤ × Bytes)
  | 0, dst, tot, _ => return (tot, dst)
  | fuel + 1, dst, tot, off => do
    if tot ≥ n then return (tot, dst)
    let addr ← bmap ip (off / BSIZE)
    if addr = 0 then return (tot, dst)
    let data ← bread addr
    let m := min (n - tot) (BSIZE - off % BSIZE)
    match stops tot m with
    | some j => return (-1, dst.blit tot data (off % BSIZE) (min j m))
    | none => readiLoop ip stops n fuel (dst.blit tot data (off % BSIZE) m) (tot + m) (off + m)

/-- Read `n` bytes from offset `off` of an inode.  The result is the number of bytes, or -1, with the
contents of the destination. -/
def readi (ip : ℕ) (dst : Buffer) (off n : ℕ) : FsM (ℤ × Bytes) := do
  let size := ((← get).inode ip).size.toNat
  if off > size ∨ (off + n) % 2 ^ 32 < off then return (0, dst.byte)
  let n := if (off + n) % 2 ^ 32 > size then size - off else n
  readiLoop ip dst.stops n n dst.byte 0 off

/-- The loop of `writei`: the number of bytes written. -/
def writeiLoop (ip : ℕ) (src : Buffer) (n : ℕ) : ℕ → ℕ → ℕ → FsM ℕ
  | 0, tot, _ => return tot
  | fuel + 1, tot, off => do
    if tot ≥ n then return tot
    let addr ← bmap ip (off / BSIZE)
    if addr = 0 then return tot
    let data ← bread addr
    let m := min (n - tot) (BSIZE - off % BSIZE)
    match src.stops tot m with
    | some j =>
      -- Might have partially updated the block, so we need to log it.
      logWrite addr (data.blit (off % BSIZE) src.byte tot (min j m))
      return tot
    | none =>
      logWrite addr (data.blit (off % BSIZE) src.byte tot m)
      writeiLoop ip src n fuel (tot + m) (off + m)

/-- Write `n` bytes to offset `off` of an inode.  The result is the number of bytes written, or -1. -/
def writei (ip : ℕ) (src : Buffer) (off n : ℕ) : FsM ℤ := do
  let size := ((← get).inode ip).size.toNat
  if off > size ∨ (off + n) % 2 ^ 32 < off then return -1
  if (off + n) % 2 ^ 32 > MAXFILE * BSIZE then return -1
  let tot ← writeiLoop ip src n n 0 off
  if off + tot > size then
    setInode ip fun x => { x with size := BitVec.ofNat 32 (off + tot) }
  iupdate ip
  return tot

/-! ## Directories -/

/-- `sizeof(struct dirent)`. -/
def DIRENT : ℕ := 16

/-- Read the directory entry at `off`; `none` if that fails. -/
def readDirent (dp off : ℕ) : FsM (Option Bytes) := do
  let (r, de) ← readi dp {} off DIRENT
  return if r = DIRENT then some de else none

/-- The loop of `dirlookup` from the offset `off` on. -/
def dirlookupLoop (dp : ℕ) (name : Bytes) : ℕ → ℕ → FsM (Option (ℕ × ℕ))
  | 0, _ => return none
  | n + 1, off => do
    if off ≥ ((← get).inode dp).size.toNat then return none
    match ← readDirent dp off with
    | none => throw "dirlookup read"
    | some de =>
      let inum := (de.get16 0).toNat
      if inum = 0 then dirlookupLoop dp name n (off + DIRENT)
      else if namecmp name (direntName de) = 0 then
        -- entry matches path element
        return some (← iget inum, off)
      else dirlookupLoop dp name n (off + DIRENT)

/-- The number of entries that fit in `size` bytes. -/
def entriesOf (size : ℕ) : ℕ := (size + DIRENT - 1) / DIRENT

/-- Look for a directory entry in a directory: its inode, and the offset of the entry. -/
def dirlookup (dp : ℕ) (name : Bytes) : FsM (Option (ℕ × ℕ)) := do
  let x := (← get).inode dp
  if x.type ≠ T_DIR then throw "dirlookup not DIR"
  dirlookupLoop dp name (entriesOf x.size.toNat) 0

/-- The loop of `dirlink` that looks for an empty entry from the offset `off` on. -/
def dirlinkLoop (dp : ℕ) : ℕ → ℕ → FsM ℕ
  | 0, off => return off
  | n + 1, off => do
    if off ≥ ((← get).inode dp).size.toNat then return off
    match ← readDirent dp off with
    | none => throw "dirlink read"
    | some de => if de.get16 0 = 0 then return off else dirlinkLoop dp n (off + DIRENT)

/-- Write a new directory entry into the directory `dp`; 0 on success, -1 on failure. -/
def dirlink (dp : ℕ) (name : Bytes) (inum : ℕ) : FsM ℤ := do
  -- Check that name is not present.
  match ← dirlookup dp name with
  | some (ip, _) =>
    iput ip
    return -1
  | none =>
    let off ← dirlinkLoop dp (entriesOf ((← get).inode dp).size.toNat) 0
    let r ← writei dp { byte := dirent inum name } off DIRENT
    return if r = DIRENT then 0 else -1

/-- Clear the directory entry at `off`, as `sys_unlink` does. -/
def clearDirent (dp off : ℕ) : FsM Unit := do
  let r ← writei dp {} off DIRENT
  if r ≠ DIRENT then throw "unlink: writei"

/-! ## Paths -/

def slash : Byte := 47

/-- Copy the next path element from `path` into `name`, and return what follows it; `none` if there is
no name to remove. -/
def skipelem (path : List Byte) (name : Bytes) : Option (List Byte × Bytes) :=
  match path.dropWhile (· = slash) with
  | [] => none
  | c :: cs =>
    let s := (c :: cs).takeWhile (· ≠ slash)
    let rest := (c :: cs).dropWhile (· ≠ slash)
    let name :=
      if s.length ≥ DIRSIZ then name.blit 0 (cbytes s) 0 DIRSIZ
      else Function.update (name.blit 0 (cbytes s) 0 s.length) s.length 0
    some (rest.dropWhile (· = slash), name)

/-- The loop of `namex`. -/
def namexLoop (nameiparent : Bool) : ℕ → ℕ → List Byte → Bytes → FsM (Option (ℕ × Bytes))
  | 0, _, _, _ => return none
  | n + 1, ip, path, name => do
    match skipelem path name with
    | none =>
      if nameiparent then
        iput ip
        return none
      return some (ip, name)
    | some (path, name) =>
      ilock ip
      let x := (← get).inode ip
      if x.type ≠ T_DIR then
        iunlockput ip
        return none
      if x.nlink = 0 then
        iunlockput ip
        return none
      if nameiparent ∧ path = [] then
        -- Stop one level early.
        iunlock ip
        return some (ip, name)
      match ← dirlookup ip name with
      | none =>
        iunlockput ip
        return none
      | some (next, _) =>
        iunlockput ip
        namexLoop nameiparent n next path name

/-- Look up the inode for a path name, or for its parent; then with the final path element. -/
def namex (cwd : ℕ) (path : List Byte) (nameiparent : Bool) : FsM (Option (ℕ × Bytes)) := do
  let ip ← if path.head? = some slash then iget ROOTINO else idup cwd
  namexLoop nameiparent (path.length + 1) ip path fun _ => 0

def namei (cwd : ℕ) (path : List Byte) : FsM (Option ℕ) := do
  return (← namex cwd path false).map Prod.fst

def nameiparent (cwd : ℕ) (path : List Byte) : FsM (Option (ℕ × Bytes)) := namex cwd path true

end Xv6
