import UCore.Library.Code
import UCore.Sfs.Model

/-! # The disk device

The model of `kern/fs/devs/dev_disk0.c` over the ramdisk of `kern/driver`, and of the transfers of
`sfs` that name a block. The memory of the callers is apart from `disk0_buffer` and from the image
of the ramdisk. `DISK0_DEV_NO` is valid: its image is not empty.
-/

namespace UCore.Disk0

open Library Sfs

def sectsize : ℕ := 512
def disk0Blksize : ℕ := 4096
def disk0Bufsize : ℕ := 4 * disk0Blksize
def disk0BlkNsect : ℕ := disk0Blksize / sectsize
def maxNsecs : ℕ := 128
def maxDiskNsecs : ℕ := 0x10000000

/-- A value of type `uint32_t`. -/
def u32 (n : ℕ) : ℕ := n % 2 ^ 32

/-- `struct iobuf`, where `base` is a position in the memory. -/
structure Iobuf where
  base : ℕ
  offset : ℤ
  len : ℕ
  resid : ℕ

def iobufInit (base len : ℕ) (offset : ℤ) : Iobuf := ⟨base, offset, len, len⟩

/-- The assertions and panics, and a loop without an end. -/
inductive Panic
  | ide
  | driver
  | skip
  | copied
  | rwblock
  | endless
deriving DecidableEq

/-- The image of the ramdisk with its length in bytes, the memory and `disk0_buffer`. -/
structure Dev where
  disk : Buf
  length : ℕ
  mem : Buf
  buffer : Buf

/-- `size` of the `ide_device`, in sectors, after `ramdisk_init`. -/
def Dev.size (s : Dev) : ℕ := u32 s.length / sectsize

/-- `d_blocks` of the `device` after `disk0_device_init`. -/
def Dev.dBlocks (s : Dev) : ℕ := s.size / disk0BlkNsect

abbrev Prog : Type → Type := Code Panic Dev

section Iobuf

def iobufSkip (iob : Iobuf) (n : ℕ) : Prog Iobuf := do
  Code.assert (fun _ => n ≤ iob.resid) .skip
  return { iob with base := iob.base + n, offset := offT (iob.offset + n), resid := iob.resid - n }

/-- `iobuf_move` between the iobuf and `disk0_buffer`: the number of bytes that it stores. -/
def iobufMove (iob : Iobuf) (len : ℕ) (m2b : Bool) : Prog (ℕ × Iobuf) := do
  let alen := min iob.resid len
  if 0 < alen then
    Code.modify fun s =>
      if m2b then { s with mem := memcpy s.mem iob.base s.buffer 0 alen }
      else { s with buffer := memcpy s.buffer 0 s.mem iob.base alen }
    let iob ← iobufSkip iob alen
    return (alen, iob)
  else return (alen, iob)

end Iobuf

section Driver

/-- The number of sectors that `ramdisk_read` and `ramdisk_write` copy. -/
def ramdiskSectors (size secno nsecs : ℕ) : ℕ := min nsecs ((size + 2 ^ 64 - secno) % 2 ^ 64)

def ramdiskRead (secno nsecs : ℕ) : Prog ℤ := do
  Code.modify fun s => { s with
    buffer := memcpy s.buffer 0 s.disk (secno * sectsize)
      (ramdiskSectors s.size secno nsecs * sectsize) }
  return 0

def ramdiskWrite (secno nsecs : ℕ) : Prog ℤ := do
  Code.modify fun s => { s with
    disk := memcpy s.disk (secno * sectsize) s.buffer 0
      (ramdiskSectors s.size secno nsecs * sectsize) }
  return 0

/-- `ide_read_secs` and `ide_write_secs`. -/
def ideSecs (write : Bool) (secno nsecs : ℕ) : Prog ℤ := do
  Code.assert (fun _ => nsecs ≤ maxNsecs) .ide
  Code.assert (fun _ => secno < maxDiskNsecs ∧ secno + nsecs ≤ maxDiskNsecs) .ide
  if write then ramdiskWrite secno nsecs else ramdiskRead secno nsecs

/-- `disk0_read_blks_nolock` and `disk0_write_blks_nolock`. -/
def disk0BlksNolock (write : Bool) (blkno nblks : ℕ) : Prog Unit := do
  let sectno := u32 (blkno * disk0BlkNsect)
  let nsecs := u32 (nblks * disk0BlkNsect)
  let ret ← ideSecs write sectno nsecs
  if ret ≠ 0 then Code.panic .driver
  else return

end Driver

section Io

/-- The variables of the loop of `disk0_io`. -/
structure Vars where
  iob : Iobuf
  resid : ℕ
  blkno : ℕ

def writeRound (x : Vars) : Prog Vars := do
  let (copied, iob) ← iobufMove x.iob disk0Bufsize false
  Code.assert (fun _ => copied ≠ 0 ∧ copied ≤ x.resid ∧ copied % disk0Blksize = 0) .copied
  let nblks := u32 (copied / disk0Blksize)
  disk0BlksNolock true x.blkno nblks
  return ⟨iob, x.resid - copied, u32 (x.blkno + nblks)⟩

def readRound (x : Vars) : Prog Vars := do
  let alen := if disk0Bufsize > x.resid then x.resid else disk0Bufsize
  let nblks := u32 (alen / disk0Blksize)
  disk0BlksNolock false x.blkno nblks
  let (copied, iob) ← iobufMove x.iob alen true
  Code.assert (fun _ => copied = alen ∧ copied % disk0Blksize = 0) .copied
  return ⟨iob, x.resid - copied, u32 (x.blkno + nblks)⟩

def disk0Round (write : Bool) (x : Vars) : Prog Vars :=
  if write then writeRound x else readRound x

/-- The loop of `disk0_io` at its head: it is left with the iobuf. -/
def disk0Step (write : Bool) (x : Vars) : Prog (Vars ⊕ Iobuf) := do
  if x.resid ≠ 0 then
    let y ← disk0Round write x
    return .inl y
  else return .inr x.iob

/-- `disk0_io`: the error and the iobuf. A round takes away a block at least. -/
def disk0Io (iob : Iobuf) (write : Bool) : Prog (ℤ × Iobuf) := do
  let blkno := (iob.offset.tdiv disk0Blksize % 2 ^ 32).toNat
  let nblks := u32 (iob.resid / disk0Blksize)
  if iob.offset.tmod disk0Blksize ≠ 0 ∨ iob.resid % disk0Blksize ≠ 0 then return (-eInval, iob)
  else if u32 (blkno + nblks) > (← Code.get).dBlocks then return (-eInval, iob)
  else if nblks = 0 then return (0, iob)
  else
    let iob ← Code.loop .endless (disk0Step write) (iob.resid / disk0Blksize + 1)
      ⟨iob, iob.resid, blkno⟩
    return (0, iob)

end Io

section Sfs

/-- `sfs_rwblock_nolock` of a volume with `blocks` blocks. -/
def sfsRwblockNolock (blocks buf blkno : ℕ) (write check : Bool) : Prog ℤ := do
  Code.assert (fun _ => (blkno ≠ 0 ∨ check = false) ∧ blkno < blocks) .rwblock
  let (ret, _) ← disk0Io (iobufInit buf sfsBlksize (u32 (blkno * sfsBlksize))) write
  return ret

def sfsInitRead (blkno blkBuffer : ℕ) : Prog ℤ := do
  let (ret, _) ← disk0Io (iobufInit blkBuffer sfsBlksize (u32 (blkno * sfsBlksize))) false
  return ret

end Sfs

end UCore.Disk0
