import Xv6.Param
import Xv6.Lib.Bytes
import Xv6.Lib.RedoLog

/-!
# The log: state and code

`kernel/log.c` below the system call brackets: how `commit` writes a transaction to the log, to
its home locations and out of the log again, and how `recover_from_log` replays it.

The buffer cache is the map `blk` from block numbers to the contents `bread` returns — the cached
copy where there is one, the disk's block otherwise.  `bwrite` copies a block of `blk` to `disk`;
it is the only operation that changes the disk, and it is atomic.  `trace` is a history variable:
the disk writes issued so far, so that the disks a crash can leave are those after a prefix of it.
-/

namespace Xv6

/-- The contents of a disk block; only offsets below `BSIZE` are used. -/
abbrev Block := Bytes

/-- The contents of a disk. -/
abbrev Disk := ℕ → Block

/-- `struct log` together with the disk and the buffer cache it works on. -/
structure LogState where
  disk : Disk  -- the disk
  blk : ℕ → Block  -- the contents `bread` returns
  pins : ℕ → ℕ  -- for each block, how often the log has pinned its buffer
  start : ℕ  -- `log.start`, the block number of the header block
  outstanding : ℤ  -- `log.outstanding`: how many system calls are executing
  committing : Bool  -- `log.committing`: in `commit()`, please wait
  ncommit : ℕ  -- `log.ncommit`
  lh : List ℕ  -- `log.lh.block[0..n)`, with `log.lh.n` its length
  trace : List (ℕ × Block)  -- the disk writes issued so far

/-! ## The on-disk header -/

/-- `lh->n` of a header block, as the number of iterations of `i < n`. -/
def headN (b : Block) : ℕ := (b.get32 0).toInt.toNat

/-- `lh->block[i]` of a header block. -/
def headBlock (b : Block) (i : ℕ) : ℕ := (b.get32 (4 + 4 * i)).toNat

/-- `hb->block[j] = bs[j - i]` for the entries from `i` on. -/
def putHeadBlocks (b : Block) (i : ℕ) : List ℕ → Block
  | [] => b
  | n :: bs => putHeadBlocks (b.put32 (4 + 4 * i) (BitVec.ofNat 32 n)) (i + 1) bs

/-- The header block with `n` and `block[0..n)` set from the in-memory header. -/
def putHead (b : Block) (lh : List ℕ) : Block :=
  putHeadBlocks (b.put32 0 (BitVec.ofNat 32 lh.length)) 0 lh

namespace LogState

/-- The state after `bread`, a change of the buffer's data to `data` and `bwrite`. -/
def bwrite (s : LogState) (b : ℕ) (data : Block) : LogState :=
  { s with
    blk := Function.update s.blk b data
    disk := Function.update s.disk b data
    trace := s.trace ++ [(b, data)] }

/-- Decrement the number of the log's pins of a buffer. -/
def bunpin (s : LogState) (b : ℕ) : LogState :=
  { s with pins := Function.update s.pins b (s.pins b - 1) }

/-- Increment the number of the log's pins of a buffer. -/
def bpin (s : LogState) (b : ℕ) : LogState :=
  { s with pins := Function.update s.pins b (s.pins b + 1) }

/-! ## Writing the log -/

/-- One iteration of `write_log`: copy the cached block `b` to log block `tail`. -/
def writeLogAt (s : LogState) (tail b : ℕ) : LogState :=
  s.bwrite (s.start + tail + 1) (s.blk b)

/-- The iterations of `write_log` from `tail` on, over the remaining entries of the header. -/
def writeLogFrom (s : LogState) (tail : ℕ) : List ℕ → LogState
  | [] => s
  | b :: bs => writeLogFrom (s.writeLogAt tail b) (tail + 1) bs

/-- Copy modified blocks from cache to log. -/
def writeLog (s : LogState) : LogState := s.writeLogFrom 0 s.lh

/-- Write the in-memory log header to disk. -/
def writeHead (s : LogState) : LogState := s.bwrite s.start (putHead (s.blk s.start) s.lh)

/-- Read the log header from disk into the in-memory log header. -/
def readHead (s : LogState) : LogState :=
  { s with lh := (List.range (headN (s.blk s.start))).map (headBlock (s.blk s.start)) }

/-- One iteration of `install_trans`: copy log block `tail` to its home location `b`. -/
def installTransAt (s : LogState) (recovering : Bool) (tail b : ℕ) : LogState :=
  let s' := s.bwrite b (s.blk (s.start + tail + 1))
  if recovering then s' else s'.bunpin b

/-- The iterations of `install_trans` from `tail` on. -/
def installTransFrom (s : LogState) (recovering : Bool) (tail : ℕ) : List ℕ → LogState
  | [] => s
  | b :: bs => installTransFrom (s.installTransAt recovering tail b) recovering (tail + 1) bs

/-- Copy committed blocks from the log to their home location. -/
def installTrans (s : LogState) (recovering : Bool) : LogState :=
  s.installTransFrom recovering 0 s.lh

/-- `log.lh.n = 0`. -/
def clearHead (s : LogState) : LogState := { s with lh := [] }

/-- `commit()`. -/
def commit (s : LogState) : LogState :=
  if s.lh.length > 0 then
    (((s.writeLog.writeHead).installTrans false).clearHead).writeHead
  else s

/-! ## Recovery -/

/-- The log after a reboot with disk `d`: the memory is lost, so every block is read from the
disk. -/
def boot (start : ℕ) (d : Disk) : LogState where
  disk := d
  blk := d
  pins := fun _ => 0
  start := start
  outstanding := 0
  committing := false
  ncommit := 0
  lh := []
  trace := []

/-- `recover_from_log()`. -/
def recoverFromLog (s : LogState) : LogState :=
  ((s.readHead.installTrans true).clearHead).writeHead

end LogState
end Xv6
