import Mathlib

/-!
# Kernel parameters

The constants of `kernel/param.h`, `kernel/fs.h`, `kernel/stat.h` and `kernel/fcntl.h` that the
model uses, under the names they have there.
-/

namespace Xv6

/-! ## `kernel/param.h` -/

def NPROC : ℕ := 64  -- maximum number of processes
def NOFILE : ℕ := 16  -- open files per process
def NFILE : ℕ := 100  -- open files per system
def NINODE : ℕ := 50  -- maximum number of active i-nodes
def NDEV : ℕ := 10  -- maximum major device number
def ROOTDEV : ℕ := 1  -- device number of the file system root disk
def MAXARG : ℕ := 32  -- maximum number of `exec` arguments
def MAXOPBLOCKS : ℕ := 10  -- maximum number of blocks any file system operation writes
def LOGBLOCKS : ℕ := MAXOPBLOCKS * 3  -- maximum number of data blocks in the on-disk log
def NBUF : ℕ := MAXOPBLOCKS * 3  -- size of the disk block cache
def MAXPATH : ℕ := 128  -- maximum length of a file path name
def USERSTACK : ℕ := 1  -- user stack pages

/-! ## `kernel/fs.h` -/

def ROOTINO : ℕ := 1  -- root i-number
def BSIZE : ℕ := 1024  -- block size
def FSMAGIC : ℕ := 0x10203040
def NDIRECT : ℕ := 12
def NINDIRECT : ℕ := BSIZE / 4
def MAXFILE : ℕ := NDIRECT + NINDIRECT
def IPB : ℕ := BSIZE / 64  -- i-nodes per block
def BPB : ℕ := BSIZE * 8  -- bitmap bits per block
def DIRSIZ : ℕ := 14

/-! ## `kernel/stat.h` -/

def T_DIR : BitVec 16 := 1

/-! ## `kernel/fcntl.h` -/

def O_WRONLY : BitVec 32 := 0x001
def O_RDWR : BitVec 32 := 0x002

end Xv6
