import Mathlib.Algebra.Order.Ring.Nat
import Mathlib.Data.Int.DivMod
import Mathlib.Logic.Function.Basic
import UCore.Defs
import UCore.Library.Code
import UCore.Process.State

/-! # The simple file system

The model of `kern/fs/sfs`: transfers of blocks, the freemap, the block map of an inode, and
reading, writing, seeking and truncating regular files. A pointer into memory is a buffer with a
position in it. A block device answers each transfer with an error code; a transfer that fails has
no effect.
-/

namespace UCore.Sfs

open Library

def sfsBlksize : ℕ := 4096
def sfsNdirect : ℕ := 12
def sfsBlkNentry : ℕ := 1024
def sfsBlkbits : ℕ := 32768
def sfsMaxFileSize : ℕ := 1024 * 1024 * 128

def sfsBlknSuper : ℕ := 0
def sfsBlknFreemap : ℕ := 2

def sfsTypeFile : ℕ := 1
def sfsTypeDir : ℕ := 2

/-- Bytes in memory or on the device. -/
abbrev Buf : Type := ℕ → UInt8

def zeros : Buf := fun _ => 0

/-- `memcpy` of `n` bytes from position `from'` of `src` to position `pos` of `dst`. -/
def memcpy (dst : Buf) (pos : ℕ) (src : Buf) (from' n : ℕ) : Buf := fun i =>
  if pos ≤ i ∧ i < pos + n then src (from' + (i - pos)) else dst i

/-- An unsigned integer in memory. -/
def putUint (n : ℕ) : Buf := fun i => UInt8.ofNat (n / 256 ^ i % 256)

/-- The `uint32_t` in memory. -/
def getU32 (b : Buf) : ℕ :=
  (b 0).toNat + (b 1).toNat * 256 + (b 2).toNat * 256 ^ 2 + (b 3).toNat * 256 ^ 3

/-- `struct sfs_disk_inode`. -/
structure DiskInode where
  size : ℕ
  type : ℕ
  nlinks : ℕ
  blocks : ℕ
  direct : ℕ → ℕ
  indirect : ℕ

def sizeofDiskInode : ℕ := 64

/-- The bytes of a `struct sfs_disk_inode`. -/
def DiskInode.bytes (din : DiskInode) : Buf := fun i =>
  if i < 4 then putUint din.size i
  else if i < 6 then putUint din.type (i - 4)
  else if i < 8 then putUint din.nlinks (i - 6)
  else if i < 12 then putUint din.blocks (i - 8)
  else if i < 60 then putUint (din.direct ((i - 12) / 4)) ((i - 12) % 4)
  else putUint din.indirect (i - 60)

/-- `struct sfs_inode`. -/
structure Sin where
  din : DiskInode
  dirty : Bool

/-- The assertions and panics. -/
inductive Panic
  | rwblock
  | bufRange
  | bitmapTranslate
  | bitmapFree
  | blockRange
  | notInuse
  | unusedBlocks
  | entryIndex
  | indirectSet
  | outOfRange
  | pastBlocks
  | noBlocks
  | isDir
  | truncBlocks
deriving DecidableEq

/-- `struct sfs_fs` with its device and its inodes in memory. `transfers` holds the error codes of
the coming transfers, which succeed when it is empty. -/
structure Fs where
  disk : ℕ → Buf
  transfers : List ℤ
  magic : ℕ
  blocks : ℕ
  unusedBlocks : ℕ
  info : Buf
  nbits : ℕ
  freemap : ℕ → Bool
  superDirty : Bool
  sin : ℕ → Sin
  inodeList : List ℕ

def sizeofSuper : ℕ := 44

/-- The bytes of a `struct sfs_super`. -/
def Fs.superBytes (s : Fs) : Buf := fun i =>
  if i < 4 then putUint s.magic i
  else if i < 8 then putUint s.blocks (i - 4)
  else if i < 12 then putUint s.unusedBlocks (i - 8)
  else s.info (i - 12)

/-- A byte of the map of a bitmap. -/
def bitmapByte (freemap : ℕ → Bool) : Buf := fun i =>
  UInt8.ofNat (((List.range 8).map fun k => if freemap (8 * i + k) then 2 ^ k else 0).sum)

/-- `sfs_freemap_blocks`. -/
def Fs.freemapBlocks (s : Fs) : ℕ := (s.blocks + sfsBlkbits - 1) / sfsBlkbits

abbrev Prog : Type → Type := Code Panic Fs

def Fs.din (s : Fs) (ino : ℕ) : DiskInode := (s.sin ino).din

def Fs.setSin (s : Fs) (ino : ℕ) (f : Sin → Sin) : Fs :=
  { s with sin := Function.update s.sin ino (f (s.sin ino)) }

section Io

/-- `dop_io` of one block: the buffer at `pos` is read or written. -/
def dopIo (buf : Buf) (pos blkno : ℕ) (write : Bool) : Prog (ℤ × Buf) := fun s =>
  let ret := s.transfers.headD 0
  let s := { s with transfers := s.transfers.tail }
  if ret ≠ 0 then .ok ((ret, buf), s)
  else if write then
    .ok ((0, buf), { s with
      disk := Function.update s.disk blkno (memcpy (s.disk blkno) 0 buf pos sfsBlksize) })
  else .ok ((0, memcpy buf pos (s.disk blkno) 0 sfsBlksize), s)

def sfsRwblockNolock (buf : Buf) (pos blkno : ℕ) (write check : Bool) : Prog (ℤ × Buf) := do
  Code.assert (fun s => (blkno ≠ 0 ∨ check = false) ∧ blkno < s.blocks) .rwblock
  dopIo buf pos blkno write

/-- `sfs_rwblock` of `nblks` blocks. -/
def sfsRwblock (write : Bool) : ℕ → Buf → ℕ → ℕ → Prog (ℤ × Buf)
  | 0, buf, _, _ => return (0, buf)
  | nblks + 1, buf, pos, blkno => do
    let (ret, buf) ← sfsRwblockNolock buf pos blkno write true
    if ret ≠ 0 then return (ret, buf)
    else sfsRwblock write nblks buf (pos + sfsBlksize) (blkno + 1)

def sfsRblock (buf : Buf) (pos blkno nblks : ℕ) : Prog (ℤ × Buf) :=
  sfsRwblock false nblks buf pos blkno

def sfsWblock (buf : Buf) (pos blkno nblks : ℕ) : Prog (ℤ × Buf) :=
  sfsRwblock true nblks buf pos blkno

def sfsRbuf (buf : Buf) (pos len blkno offset : ℕ) : Prog (ℤ × Buf) := do
  Code.assert (fun _ => offset < sfsBlksize ∧ offset + len ≤ sfsBlksize) .bufRange
  let (ret, sfsBuffer) ← sfsRwblockNolock zeros 0 blkno false true
  return (ret, if ret = 0 then memcpy buf pos sfsBuffer offset len else buf)

def sfsWbuf (buf : Buf) (pos len blkno offset : ℕ) : Prog (ℤ × Buf) := do
  Code.assert (fun _ => offset < sfsBlksize ∧ offset + len ≤ sfsBlksize) .bufRange
  let (ret, sfsBuffer) ← sfsRwblockNolock zeros 0 blkno false true
  if ret ≠ 0 then return (ret, buf)
  else
    let (ret, _) ← sfsRwblockNolock (memcpy sfsBuffer offset buf pos len) 0 blkno true true
    return (ret, buf)

/-- `sfs_clear_block` of one block. -/
def sfsClearBlock (blkno : ℕ) : Prog ℤ := do
  let (ret, _) ← sfsRwblockNolock zeros 0 blkno true true
  return ret

end Io

section Bitmap

/-- The first set bit from `ix` on, of `n` bits: the loops of `bitmap_alloc` over the words and over
the bits of a word. -/
def firstSet (freemap : ℕ → Bool) : ℕ → ℕ → Option ℕ
  | 0, _ => none
  | n + 1, ix => if freemap ix then some ix else firstSet freemap n (ix + 1)

/-- `bitmap_alloc`: the error, and the index that it stores. -/
def bitmapAlloc : Prog (ℤ × ℕ) := fun s =>
  match firstSet s.freemap s.nbits 0 with
  | none => .ok ((-eNoMem, 0), s)
  | some ix => .ok ((0, ix), { s with freemap := Function.update s.freemap ix false })

def bitmapTest (index : ℕ) : Prog Bool := do
  Code.assert (fun s => index < s.nbits) .bitmapTranslate
  return (← Code.get).freemap index

def bitmapFree (index : ℕ) : Prog Unit := do
  Code.assert (fun s => index < s.nbits) .bitmapTranslate
  Code.assert (fun s => s.freemap index = false) .bitmapFree
  Code.modify fun s => { s with freemap := Function.update s.freemap index true }

def sfsBlockInuse (ino : ℕ) : Prog Bool := do
  if ino ≠ 0 ∧ ino < (← Code.get).blocks then return !(← bitmapTest ino)
  else Code.panic .blockRange

/-- `assert(sfs_block_inuse(sfs, ino))`. -/
def assertInuse (ino : ℕ) : Prog Unit := do
  if ← sfsBlockInuse ino then return
  else Code.panic .notInuse

/-- `sfs_block_alloc`: the error, and the block that it stores. -/
def sfsBlockAlloc : Prog (ℤ × ℕ) := do
  let (ret, ino) ← bitmapAlloc
  if ret ≠ 0 then return (ret, 0)
  else
    Code.assert (fun s => 0 < s.unusedBlocks) .unusedBlocks
    Code.modify fun s => { s with unusedBlocks := s.unusedBlocks - 1, superDirty := true }
    assertInuse ino
    let ret ← sfsClearBlock ino
    return (ret, ino)

def sfsBlockFree (ino : ℕ) : Prog Unit := do
  assertInuse ino
  bitmapFree ino
  Code.modify fun s => { s with unusedBlocks := s.unusedBlocks + 1, superDirty := true }

end Bitmap

section Bmap

/-- `failed_cleanup` of `sfs_bmap_get_sub_nolock`, where `entp` points to `entp`. -/
def cleanupEntry (entp ent : ℕ) : Prog Unit := do
  if ent ≠ entp then sfsBlockFree ent
  else return

/-- The part of `sfs_bmap_get_sub_nolock` that enters a new block at `offset` of `ent`. -/
def addEntry (entp ent offset : ℕ) : Prog (ℤ × ℕ × ℕ) := do
  let (ret, ino) ← sfsBlockAlloc
  if ret ≠ 0 then
    cleanupEntry entp ent
    return (ret, entp, 0)
  else
    let (ret, _) ← sfsWbuf (putUint ino) 0 4 ent offset
    if ret ≠ 0 then
      sfsBlockFree ino
      cleanupEntry entp ent
      return (ret, entp, 0)
    else return (0, ent, ino)

/-- `sfs_bmap_get_sub_nolock`: the error, the new `*entp` and `*ino_store`. -/
def sfsBmapGetSubNolock (entp index : ℕ) (create : Bool) : Prog (ℤ × ℕ × ℕ) := do
  Code.assert (fun _ => index < sfsBlkNentry) .entryIndex
  let offset := index * 4
  if entp ≠ 0 then
    let (ret, b) ← sfsRbuf zeros 0 4 entp offset
    if ret ≠ 0 then return (ret, entp, 0)
    else if getU32 b ≠ 0 ∨ create = false then return (0, entp, getU32 b)
    else addEntry entp entp offset
  else if create = false then return (0, entp, 0)
  else
    let (ret, ent) ← sfsBlockAlloc
    if ret ≠ 0 then return (ret, entp, 0)
    else addEntry entp ent offset

/-- The part of `sfs_bmap_get_nolock` from `out` on. -/
def bmapOut (ino : ℕ) : Prog (ℤ × ℕ) := do
  if ino = 0 then return (0, ino)
  else
    assertInuse ino
    return (0, ino)

/-- `sfs_bmap_get_nolock` of the inode `sin`: the error and `*ino_store`. -/
def sfsBmapGetNolock (sin index : ℕ) (create : Bool) : Prog (ℤ × ℕ) := do
  let din := (← Code.get).din sin
  if index < sfsNdirect then
    if din.direct index = 0 ∧ create = true then
      let (ret, ino) ← sfsBlockAlloc
      if ret ≠ 0 then return (ret, 0)
      else
        Code.modify fun s => s.setSin sin fun x =>
          { x with
            din := { x.din with direct := Function.update x.din.direct index ino }
            dirty := true }
        bmapOut ino
    else bmapOut (din.direct index)
  else if index - sfsNdirect < sfsBlkNentry then
    let (ret, ent, ino) ← sfsBmapGetSubNolock din.indirect (index - sfsNdirect) create
    if ret ≠ 0 then return (ret, 0)
    else if ent ≠ din.indirect then
      Code.assert (fun s => (s.din sin).indirect = 0) .indirectSet
      Code.modify fun s => s.setSin sin fun x =>
        { x with din := { x.din with indirect := ent }, dirty := true }
      bmapOut ino
    else bmapOut ino
  else Code.panic .outOfRange

def sfsBmapFreeSubNolock (ent index : ℕ) : Prog ℤ := do
  assertInuse ent
  Code.assert (fun _ => index < sfsBlkNentry) .entryIndex
  let offset := index * 4
  let (ret, b) ← sfsRbuf zeros 0 4 ent offset
  if ret ≠ 0 then return ret
  else if getU32 b ≠ 0 then
    let (ret, _) ← sfsWbuf (putUint 0) 0 4 ent offset
    if ret ≠ 0 then return ret
    else
      sfsBlockFree (getU32 b)
      return 0
  else return 0

def sfsBmapFreeNolock (sin index : ℕ) : Prog ℤ := do
  let din := (← Code.get).din sin
  if index < sfsNdirect then
    if din.direct index ≠ 0 then
      sfsBlockFree (din.direct index)
      Code.modify fun s => s.setSin sin fun x =>
        { x with
          din := { x.din with direct := Function.update x.din.direct index 0 }
          dirty := true }
      return 0
    else return 0
  else if index - sfsNdirect < sfsBlkNentry then
    if din.indirect ≠ 0 then sfsBmapFreeSubNolock din.indirect (index - sfsNdirect)
    else return 0
  else return 0

/-- `sfs_bmap_load_nolock`: the error and `*ino_store`. -/
def sfsBmapLoadNolock (sin index : ℕ) : Prog (ℤ × ℕ) := do
  Code.assert (fun s => index ≤ (s.din sin).blocks) .pastBlocks
  let create := decide (index = ((← Code.get).din sin).blocks)
  let (ret, ino) ← sfsBmapGetNolock sin index create
  if ret ≠ 0 then return (ret, 0)
  else
    assertInuse ino
    if create then
      Code.modify fun s => s.setSin sin fun x =>
        { x with din := { x.din with blocks := x.din.blocks + 1 } }
      return (0, ino)
    else return (0, ino)

def sfsBmapTruncateNolock (sin : ℕ) : Prog ℤ := do
  Code.assert (fun s => (s.din sin).blocks ≠ 0) .noBlocks
  let ret ← sfsBmapFreeNolock sin (((← Code.get).din sin).blocks - 1)
  if ret ≠ 0 then return ret
  else
    Code.modify fun s => s.setSin sin fun x =>
      { din := { x.din with blocks := x.din.blocks - 1 }, dirty := true }
    return 0

end Bmap

section File

/-- A value of type `off_t`. -/
def offT (x : ℤ) : ℤ := x.bmod (2 ^ 64)

def sfsBufOp (write : Bool) (buf : Buf) (pos len blkno offset : ℕ) : Prog (ℤ × Buf) :=
  if write then sfsWbuf buf pos len blkno offset else sfsRbuf buf pos len blkno offset

/-- `sfs_block_op` of one block. -/
def sfsBlockOp (write : Bool) (buf : Buf) (pos blkno : ℕ) : Prog (ℤ × Buf) :=
  if write then sfsWblock buf pos blkno 1 else sfsRblock buf pos blkno 1

/-- The transfer of a part of the block `blkno` of the file. -/
def ioPart (sin : ℕ) (write : Bool) (buf : Buf) (pos size blkno blkoff : ℕ) : Prog (ℤ × Buf) := do
  let (ret, ino) ← sfsBmapLoadNolock sin blkno
  if ret ≠ 0 then return (ret, buf)
  else sfsBufOp write buf pos size ino blkoff

/-- The loop of `sfs_io_nolock` over `nblks` whole blocks: the error, `alen` and the buffer. -/
def ioLoop (sin : ℕ) (write : Bool) : ℕ → ℕ → ℕ → Buf → Prog (ℤ × ℕ × Buf)
  | 0, _, alen, buf => return (0, alen, buf)
  | nblks + 1, blkno, alen, buf => do
    let (ret, ino) ← sfsBmapLoadNolock sin blkno
    if ret ≠ 0 then return (ret, alen, buf)
    else
      let (ret, buf) ← sfsBlockOp write buf alen ino
      if ret ≠ 0 then return (ret, alen, buf)
      else ioLoop sin write nblks (blkno + 1) (alen + sfsBlksize) buf

/-- The part of `sfs_io_nolock` after the first block. -/
def ioRest (sin : ℕ) (write : Bool) (blkno nblks endpos alen : ℕ) (buf : Buf) :
    Prog (ℤ × ℕ × Buf) := do
  let (ret, alen, buf) ← ioLoop sin write nblks blkno alen buf
  if ret ≠ 0 then return (ret, alen, buf)
  else if endpos % sfsBlksize ≠ 0 then
    let (ret, buf) ← ioPart sin write buf alen (endpos % sfsBlksize) (blkno + nblks) 0
    if ret ≠ 0 then return (ret, alen, buf)
    else return (0, alen + endpos % sfsBlksize, buf)
  else return (0, alen, buf)

/-- The transfers of `sfs_io_nolock` from `offset` to `endpos`. -/
def ioBlocks (sin : ℕ) (write : Bool) (offset endpos : ℕ) (buf : Buf) : Prog (ℤ × ℕ × Buf) := do
  let blkno := offset / sfsBlksize
  let nblks := endpos / sfsBlksize - blkno
  let blkoff := offset % sfsBlksize
  if blkoff ≠ 0 then
    let size := if nblks ≠ 0 then sfsBlksize - blkoff else endpos - offset
    let (ret, buf) ← ioPart sin write buf 0 size blkno blkoff
    if ret ≠ 0 then return (ret, 0, buf)
    else if nblks = 0 then return (0, size, buf)
    else ioRest sin write (blkno + 1) (nblks - 1) endpos size buf
  else ioRest sin write blkno nblks endpos 0 buf

/-- The part of `sfs_io_nolock` from `out` on: the size of the file covers what was transferred. -/
def ioOut (sin offset alen : ℕ) : Prog Unit :=
  Code.modify fun s =>
    if (s.din sin).size < offset + alen then
      s.setSin sin fun x => { din := { x.din with size := offset + alen }, dirty := true }
    else s

/-- `sfs_io_nolock` of `len` bytes: the error, `*alenp` and the buffer. -/
def sfsIoNolock (sin : ℕ) (buf : Buf) (offset : ℤ) (len : ℕ) (write : Bool) :
    Prog (ℤ × ℕ × Buf) := do
  Code.assert (fun s => (s.din sin).type ≠ sfsTypeDir) .isDir
  let size := ((← Code.get).din sin).size
  let endpos := offT (offset + len)
  if offset < 0 ∨ offset ≥ sfsMaxFileSize ∨ offset > endpos then return (-eInval, 0, buf)
  else if offset = endpos then return (0, 0, buf)
  else
    let endpos := min endpos sfsMaxFileSize
    if write = false ∧ offset ≥ size then return (0, 0, buf)
    else
      let endpos := if write then endpos else min endpos size
      let (ret, alen, buf) ← ioBlocks sin write offset.toNat endpos.toNat buf
      ioOut sin offset.toNat alen
      return (ret, alen, buf)

/-- The loop of `sfs_truncfile` that appends `n` blocks from `nblks` on. -/
def growLoop (sin : ℕ) : ℕ → ℕ → Prog ℤ
  | 0, _ => return 0
  | n + 1, nblks => do
    let (ret, _) ← sfsBmapLoadNolock sin nblks
    if ret ≠ 0 then return ret
    else growLoop sin n (nblks + 1)

/-- The loop of `sfs_truncfile` that removes `n` blocks. -/
def shrinkLoop (sin : ℕ) : ℕ → Prog ℤ
  | 0 => return 0
  | n + 1 => do
    let ret ← sfsBmapTruncateNolock sin
    if ret ≠ 0 then return ret
    else shrinkLoop sin n

def sfsTruncfile (sin : ℕ) (len : ℤ) : Prog ℤ := do
  if len < 0 ∨ len > sfsMaxFileSize then return -eInval
  else
    let din := (← Code.get).din sin
    let tblks := (len.toNat + sfsBlksize - 1) / sfsBlksize
    if len = din.size then
      Code.assert (fun s => tblks = (s.din sin).blocks) .truncBlocks
      return 0
    else
      let ret ←
        if din.blocks < tblks then growLoop sin (tblks - din.blocks) din.blocks
        else shrinkLoop sin (din.blocks - tblks)
      if ret ≠ 0 then return ret
      else
        Code.assert (fun s => (s.din sin).blocks = tblks) .truncBlocks
        Code.modify fun s => s.setSin sin fun x =>
          { din := { x.din with size := len.toNat }, dirty := true }
        return 0

def sfsTryseek (sin : ℕ) (pos : ℤ) : Prog ℤ := do
  if pos < 0 ∨ pos ≥ sfsMaxFileSize then return -eInval
  else if pos > ((← Code.get).din sin).size then sfsTruncfile sin pos
  else return 0

end File

section Sync

def sfsFsync (ino : ℕ) : Prog ℤ := do
  let x := (← Code.get).sin ino
  if x.dirty then
    Code.modify fun s => s.setSin ino fun x => { x with dirty := false }
    let (ret, _) ← sfsWbuf x.din.bytes 0 sizeofDiskInode ino 0
    if ret ≠ 0 then
      Code.modify fun s => s.setSin ino fun x => { x with dirty := true }
      return ret
    else return 0
  else return 0

def sfsSyncSuper : Prog ℤ := do
  let sfsBuffer := memcpy zeros 0 (← Code.get).superBytes 0 sizeofSuper
  let (ret, _) ← sfsRwblockNolock sfsBuffer 0 sfsBlknSuper true false
  return ret

def sfsSyncFreemap : Prog ℤ := do
  let s ← Code.get
  let (ret, _) ← sfsWblock (bitmapByte s.freemap) 0 sfsBlknFreemap s.freemapBlocks
  return ret

/-- The loop of `sfs_sync` over the inodes. -/
def fsyncAll : List ℕ → Prog Unit
  | [] => return
  | ino :: l => do
    let _ ← sfsFsync ino
    fsyncAll l

def setSuperDirty (b : Bool) : Prog Unit := Code.modify fun s => { s with superDirty := b }

def sfsSync : Prog ℤ := do
  fsyncAll (← Code.get).inodeList
  if (← Code.get).superDirty then
    setSuperDirty false
    let ret ← sfsSyncSuper
    if ret ≠ 0 then
      setSuperDirty true
      return ret
    else
      let ret ← sfsSyncFreemap
      if ret ≠ 0 then
        setSuperDirty true
        return ret
      else return 0
  else return 0

end Sync

end UCore.Sfs
