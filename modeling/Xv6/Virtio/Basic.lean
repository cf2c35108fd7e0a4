import Xv6.Proc.Thread

/-!
# The virtio disk

`virtio_disk_rw` and `virtio_disk_intr` of `kernel/virtio_disk.c` as programs of kernel threads
around `disk.vdisk_lock`, together with the device at the other end of the two rings.  The threads
that have no process are the interrupt handlers, which run at any time and on any number of CPUs,
and the device.  The device takes chains from the avail ring when it likes and completes those it
has taken in any order, each once and with status 0.

The callers are `bread` and `bwrite`, which hold the sleep-lock of the buffer during the call: two
calls at a time are for two buffers.  Buffers are numbers, and so are the descriptors; what the
device reads from and writes to the disk is left out.
-/

namespace Xv6

namespace Virtio

open Function

def NUM : ℕ := 8  -- this many virtio descriptors
def VRING_DESC_F_NEXT : BitVec 16 := 1  -- chained with another descriptor
def VRING_DESC_F_WRITE : BitVec 16 := 2  -- device writes (vs read)
def VIRTIO_BLK_T_IN : ℕ := 0  -- read the disk
def VIRTIO_BLK_T_OUT : ℕ := 1  -- write the disk

/-- What a descriptor can point to. -/
inductive Addr
  | null
  | op (i : ℕ)  -- `&disk.ops[i]`
  | data (b : ℕ)  -- `b->data`
  | status (i : ℕ)  -- `&disk.info[i].status`
  deriving DecidableEq, Repr

/-- `struct virtq_desc`. -/
structure Desc where
  addr : Addr := .null
  len : ℕ := 0
  flags : BitVec 16 := 0
  next : ℕ := 0
  deriving DecidableEq, Repr

/-- `struct virtio_blk_req`. -/
structure BlkReq where
  type : ℕ := 0
  reserved : ℕ := 0
  sector : ℕ := 0
  deriving DecidableEq, Repr

/-- An element of `disk.info`. -/
structure Info where
  b : Option ℕ := none
  status : BitVec 8 := 0
  deriving DecidableEq, Repr

/-- A ring of `NUM` descriptor numbers with its index. -/
structure Queue where
  idx : BitVec 16 := 0
  ring : ℕ → ℕ := fun _ => 0

/-- The fields of `struct buf` that the driver uses. -/
structure Buf where
  disk : ℕ := 0  -- does disk own buf?
  blockno : ℕ := 0
  deriving DecidableEq, Repr

/-- The device: how far it has looked in the avail ring, and the chains it is working on. -/
structure Device where
  idx : BitVec 16 := 0
  pending : List ℕ := []

/-- `struct disk` and the buffers.  The last three fields are history variables: the number of
requests submitted, the number of the request a chain was last submitted for, and the requests that
the device has completed. -/
structure Disk where
  desc : ℕ → Desc := fun _ => {}
  avail : Queue := {}
  used : Queue := {}
  free : ℕ → Bool := fun _ => true  -- is a descriptor free?
  usedIdx : BitVec 16 := 0  -- we've looked this far in `used`
  info : ℕ → Info := fun _ => {}
  ops : ℕ → BlkReq := fun _ => {}
  buf : ℕ → Buf := fun _ => {}
  locked : ℕ → Bool := fun _ => false  -- is the sleep-lock of the buffer held?
  dev : Device := {}
  nsub : ℕ := 0
  ticket : ℕ → ℕ := fun _ => 0
  completed : List ℕ := []

/-- `int idx[3]`, the descriptors of a request. -/
structure Idx where
  i0 : ℕ
  i1 : ℕ
  i2 : ℕ
  deriving DecidableEq, Repr

/-- The descriptors in the order of the chain. -/
@[simp] def Idx.list (c : Idx) : List ℕ := [c.i0, c.i1, c.i2]

namespace Disk

/-- The number of free descriptors. -/
def nfree (x : Disk) : ℕ := ((List.range NUM).filter x.free).length

/-- `alloc_desc`. -/
def allocDesc (x : Disk) : Option (ℕ × Disk) :=
  match (List.range NUM).find? x.free with
  | some i => some (i, { x with free := update x.free i false })
  | none => none

/-- `free_desc`, up to its `wakeup`. -/
def freeDesc (x : Disk) (i : ℕ) : Except String Disk :=
  if NUM ≤ i then .error "free_desc 1"
  else if x.free i then .error "free_desc 2"
  else .ok { x with desc := update x.desc i {}, free := update x.free i true }

/-- `b->blockno * (BSIZE / 512)`, a product of 32-bit numbers. -/
def sector (x : Disk) (b : ℕ) : ℕ := (x.buf b).blockno * (BSIZE / 512) % 2 ^ 32

/-- The three descriptors and the header of a request. -/
def format (x : Disk) (b : ℕ) (write : Bool) (c : Idx) : Disk :=
  let type := if write then VIRTIO_BLK_T_OUT else VIRTIO_BLK_T_IN
  let dir := if write then 0 else VRING_DESC_F_WRITE
  let desc := update x.desc c.i0
    { addr := .op c.i0, len := 16, flags := VRING_DESC_F_NEXT, next := c.i1 }
  let desc := update desc c.i1
    { addr := .data b, len := BSIZE, flags := dir ||| VRING_DESC_F_NEXT, next := c.i2 }
  let desc := update desc c.i2
    { addr := .status c.i0, len := 1, flags := VRING_DESC_F_WRITE, next := 0 }
  { x with
    ops := update x.ops c.i0 { type := type, reserved := 0, sector := x.sector b }
    desc := desc
    info := update x.info c.i0 { x.info c.i0 with status := 0xff } }

/-- `b->disk = v`. -/
def setDisk (x : Disk) (b v : ℕ) : Disk :=
  { x with buf := update x.buf b { x.buf b with disk := v } }

/-- `disk.info[i].b = b`. -/
def setInfo (x : Disk) (i : ℕ) (b : Option ℕ) : Disk :=
  { x with info := update x.info i { x.info i with b := b } }

/-- `disk.avail->ring[disk.avail->idx % NUM] = i`. -/
def setRing (x : Disk) (i : ℕ) : Disk :=
  { x with
    avail := { x.avail with ring := update x.avail.ring (x.avail.idx.toNat % NUM) i } }

/-- `disk.avail->idx += 1`, which submits the chain that starts at `i`. -/
def submit (x : Disk) (i : ℕ) : Disk :=
  { x with
    avail := { x.avail with idx := x.avail.idx + 1 }
    nsub := x.nsub + 1
    ticket := update x.ticket i x.nsub }

/-- `disk.used->ring[disk.used_idx % NUM].id`. -/
def usedId (x : Disk) : ℕ := x.used.ring (x.usedIdx.toNat % NUM)

/-- The device takes the next chain from the avail ring. -/
def consume (x : Disk) : Disk :=
  { x with
    dev :=
      { idx := x.dev.idx + 1
        pending := x.dev.pending ++ [x.avail.ring (x.dev.idx.toNat % NUM)] } }

/-- The device writes 0 to where the last descriptor of the chain points to. -/
def writeStatus (x : Disk) (id : ℕ) : Disk :=
  match (x.desc (x.desc (x.desc id).next).next).addr with
  | .status i => { x with info := update x.info i { x.info i with status := 0 } }
  | _ => x

/-- The device has finished with the chain that starts at `id`. -/
def complete (x : Disk) (id : ℕ) : Disk :=
  let x := x.writeStatus id
  { x with
    used :=
      { idx := x.used.idx + 1
        ring := update x.used.ring (x.used.idx.toNat % NUM) id }
    dev := { x.dev with pending := x.dev.pending.erase id }
    completed := x.completed ++ [x.ticket id] }

end Disk

/-- A submitted request: its buffer and descriptors, and, as a history variable, its number. -/
structure Req where
  b : ℕ
  idx : Idx
  n : ℕ
  deriving DecidableEq, Repr

/-- The positions of the callers of `virtio_disk_rw` (`r…` and, in its second loop, `w…`; in
`free_chain` `f…`), of the handlers (`i…`) and of the device. -/
inductive Pc
  | out
  | rAcquire (b : ℕ) (write : Bool)
  | rAlloc (b : ℕ) (write : Bool) (idx : List ℕ)  -- in `alloc3_desc`, with `idx` allocated so far
  | rUndo (b : ℕ) (write : Bool) (js : List ℕ)  -- `alloc3_desc` fails; `js` still to be freed
  | rUndoWake (b : ℕ) (write : Bool) (js : List ℕ)
  | rPrepare (b : ℕ) (write : Bool)
  | rUnlock (b : ℕ) (write : Bool)
  | rSleep (b : ℕ) (write : Bool)
  | rFormat (b : ℕ) (write : Bool) (c : Idx)
  | rInfo (b : ℕ) (c : Idx)
  | rRing (b : ℕ) (c : Idx)
  | rIdx (b : ℕ) (c : Idx)
  | wTest (r : Req)
  | wPrepare (r : Req)
  | wUnlock (r : Req)
  | wSleep (r : Req)
  | wAcquire (r : Req)
  | wDone (r : Req)
  | fChain (r : Req) (i : ℕ)
  | fWake (r : Req) (next : Option ℕ)
  | rRelease (r : Req)
  | rReturn (r : Req)
  | iOut
  | iAcquire
  | iTest
  | iRead
  | iWake (b : ℕ)
  | iNext
  | iRelease
  | dev
  deriving DecidableEq, Repr

/-- What the code does not determine. -/
inductive Choice
  | rw (b : ℕ) (write : Bool)  -- `bread` or `bwrite` calls `virtio_disk_rw`
  | go
  | consume
  | complete (id : ℕ)
  deriving DecidableEq, Repr

/-- The addresses that serve as channels. -/
structure Chans where
  free : ℕ  -- `&disk.free[0]`
  buf : ℕ → ℕ
  free_ne_zero : free ≠ 0
  buf_ne_zero : ∀ b, buf b ≠ 0
  buf_ne_free : ∀ b, buf b ≠ free
  buf_inj : ∀ b b', buf b = buf b' → b = b'

/-- The actions of the device. -/
def device (x : Disk) : Choice → Outcome Disk Pc
  | .consume => if x.dev.idx ≠ x.avail.idx then .next x.consume .dev else .stuck
  | .complete id => if id ∈ x.dev.pending then .next (x.complete id) .dev else .stuck
  | _ => .stuck

/-- The body of `virtio_disk_intr`'s loop up to `b->disk = 0`.  With a null `b` the store faults. -/
def intr (x : Disk) : Outcome Disk Pc :=
  if (x.info x.usedId).status ≠ 0 then .panic "virtio_disk_intr status"
  else match (x.info x.usedId).b with
    | some b => .next (x.setDisk b 0) (.iWake b)
    | none => .panic "kerneltrap"

/-- The code. -/
def code (a : Chans) : Pc → Instr Disk Pc Choice
  | .out => .act fun x ch =>
    match ch with
    | .rw b write =>
      if x.locked b then .stuck
      else .next { x with locked := update x.locked b true } (.rAcquire b write)
    | _ => .stuck
  | .rAcquire b write => .acquire (.rAlloc b write [])
  | .rAlloc b write idx => .act fun x _ =>
    match x.allocDesc with
    | none => .next x (.rUndo b write idx)
    | some (i, x') =>
      match idx with
      | [] => .next x' (.rAlloc b write [i])
      | [i0] => .next x' (.rAlloc b write [i0, i])
      | i0 :: i1 :: _ => .next x' (.rFormat b write ⟨i0, i1, i⟩)
  | .rUndo b write [] => .act fun x _ => .next x (.rPrepare b write)
  | .rUndo b write (j :: js) => .act fun x _ =>
    match x.freeDesc j with
    | .ok x' => .next x' (.rUndoWake b write js)
    | .error msg => .panic msg
  | .rUndoWake b write js => .wakeup a.free (.rUndo b write js)
  | .rPrepare b write => .sleepPrepare a.free (.rUnlock b write)
  | .rUnlock b write => .release (.rSleep b write)
  | .rSleep b write => .sleep (.rAcquire b write)
  | .rFormat b write c => .act fun x _ => .next (x.format b write c) (.rInfo b c)
  | .rInfo b c => .act fun x _ => .next ((x.setDisk b 1).setInfo c.i0 (some b)) (.rRing b c)
  | .rRing b c => .act fun x _ => .next (x.setRing c.i0) (.rIdx b c)
  | .rIdx b c => .act fun x _ => .next (x.submit c.i0) (.wTest ⟨b, c, x.nsub⟩)
  | .wTest r => .act fun x _ =>
    if (x.buf r.b).disk = 1 then .next x (.wPrepare r) else .next x (.wDone r)
  | .wPrepare r => .sleepPrepare (a.buf r.b) (.wUnlock r)
  | .wUnlock r => .release (.wSleep r)
  | .wSleep r => .sleep (.wAcquire r)
  | .wAcquire r => .acquire (.wTest r)
  | .wDone r => .act fun x _ => .next (x.setInfo r.idx.i0 none) (.fChain r r.idx.i0)
  | .fChain r i => .act fun x _ =>
    let flag := (x.desc i).flags
    let nxt := (x.desc i).next
    match x.freeDesc i with
    | .ok x' => .next x' (.fWake r (if flag &&& VRING_DESC_F_NEXT ≠ 0 then some nxt else none))
    | .error msg => .panic msg
  | .fWake r (some i) => .wakeup a.free (.fChain r i)
  | .fWake r none => .wakeup a.free (.rRelease r)
  | .rRelease r => .release (.rReturn r)
  | .rReturn r => .act fun x _ =>
    .next { x with locked := update x.locked r.b false } .out
  | .iOut => .act fun x _ => .next x .iAcquire
  | .iAcquire => .acquire .iTest
  | .iTest => .act fun x _ =>
    if x.usedIdx ≠ x.used.idx then .next x .iRead else .next x .iRelease
  | .iRead => .act fun x _ => intr x
  | .iWake b => .wakeup (a.buf b) .iNext
  | .iNext => .act fun x _ => .next { x with usedIdx := x.usedIdx + 1 } .iTest
  | .iRelease => .release .iOut
  | .dev => .act device

end Virtio

end Xv6
