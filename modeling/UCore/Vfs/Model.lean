import UCore.Defs
import UCore.Sfs.Volume

/-! # Inodes in memory

The model of `kern/fs/vfs/inode.c`, of the operations of the inodes of `kern/fs/sfs` and of the
devices `stdin` and `stdout`. An inode in memory has an address, which is not used again after the
inode was freed; an access to a freed inode is a panic of the model. The record of an inode of the
volume that is not in memory is the one on the device.
-/

namespace UCore.Vfs

open Library Sfs

def eNoDev : ℤ := 13
def eBusy : ℤ := 15
def eNoent : ℤ := 16
def eIsdir : ℤ := 17
def eNotdir : ℤ := 18
def eMaxOpen : ℤ := 22
def eExists : ℤ := 23

def oWronly : ℕ := 1
def oAccmode : ℕ := 3
def oCreat : ℕ := 0x4
def oExcl : ℕ := 0x8
def oTrunc : ℕ := 0x10
def oAppend : ℕ := 0x20

def sIfreg : ℕ := 0o010000
def sIfdir : ℕ := 0o020000
def sIflnk : ℕ := 0o030000
def sIfchr : ℕ := 0o040000

def sfsTypeLink : ℕ := 3
def sfsBlknRoot : ℕ := 1
def sfsMaxFnameLen : ℕ := 255
def sizeofDiskEntry : ℕ := 260
def sfsDentrySize : ℕ := 256

def maxInodeCount : ℤ := 0x10000

abbrev Str : Type := List UInt8

/-- The string in the first `n` bytes of a buffer. -/
def cString (b : Buf) (n : ℕ) : Str := ((List.range n).map b).takeWhile fun c => decide (c ≠ 0)

inductive Dev
  | stdin
  | stdout
deriving DecidableEq

/-- The tables `sfs_node_dirops`, `sfs_node_fileops` and `dev_node_ops`. -/
inductive Ops
  | dir
  | file
  | dev
deriving DecidableEq

/-- The members of `struct inode_ops`. -/
inductive Vop
  | vopOpen
  | vopClose
  | vopRead
  | vopWrite
  | vopFstat
  | vopFsync
  | vopNamefile
  | vopGetdirentry
  | vopReclaim
  | vopGettype
  | vopTryseek
  | vopTruncate
  | vopCreate
  | vopLookup
deriving DecidableEq

/-- The operation is in the table. -/
def Ops.has : Ops → Vop → Bool
  | _, .vopOpen | _, .vopClose | _, .vopFstat | _, .vopGettype => true
  | .dir, .vopFsync | .dir, .vopNamefile | .dir, .vopGetdirentry | .dir, .vopReclaim
  | .dir, .vopLookup => true
  | .file, .vopRead | .file, .vopWrite | .file, .vopFsync | .file, .vopReclaim
  | .file, .vopTryseek | .file, .vopTruncate => true
  | .dev, .vopRead | .dev, .vopWrite | .dev, .vopTryseek | .dev, .vopLookup => true
  | _, _ => false

/-- The assertions and panics. -/
inductive Panic
  | sfs (e : Sfs.Panic)
  | dangling
  | noOp (op : Vop)
  | inodeOrder
  | inodeLimit
  | refCount
  | openCount
  | inodeKill
  | infoType
  | fileType
  | nlinks
  | reclaimCount
  | direntRead
  | nameLength
  | lookupPath
  | namefile
  | loadRoot
  | noFs
  | noFiles
  | noNode
  | iobufSkip
  | fdAlloc
  | fdFree
  | fdAcquire
  | fdRelease
  | fdOpen
  | fdClose
  | fdDup
  | filesDestroy
deriving DecidableEq

/-- `in_info`: a device, or an inode of the volume. -/
inductive Info
  | dev (d : Dev)
  | sfs (ino : ℕ)
deriving DecidableEq

/-- `struct inode`, with the `reclaim_count` of `struct sfs_inode`. -/
structure Inode where
  info : Info
  ops : Ops
  refCount : ℤ
  openCount : ℤ
  reclaimCount : ℤ

inductive Status
  | none
  | init
  | opened
  | closed
deriving DecidableEq

structure File where
  status : Status
  readable : Bool
  writable : Bool
  pos : ℤ
  node : Option ℕ
  openCount : ℤ

/-- `struct files_struct`. -/
structure Files where
  pwd : Option ℕ
  fdArray : ℕ → File
  nlinks : ℤ

/-- The mounted volume, the inodes in memory with the hash list of the volume, `bootfs_node`, the
inodes of the devices, and the tables of open files. The addresses from `brk` and `fbrk` on are
free. `kmallocs` holds the answers of the coming calls of `kmalloc`, which succeed when it is empty,
and `stdin` the characters that a read of `stdin` can get. -/
structure Kernel where
  fs : Fs
  inode : ℕ → Option Inode
  brk : ℕ
  hash : ℕ → Option ℕ
  bootfs : Option ℕ
  devnode : Dev → ℕ
  kmallocs : List Bool
  stdin : List UInt8
  files : ℕ → Option Files
  fbrk : ℕ

abbrev Prog : Type → Type := Code Panic Kernel

def Kernel.setInode (k : Kernel) (p : ℕ) (n : Option Inode) : Kernel :=
  { k with inode := Function.update k.inode p n }

def Kernel.setFs (k : Kernel) (fs : Fs) : Kernel := { k with fs := fs }

def volume {α : Type} (m : Sfs.Prog α) : Prog α := fun k =>
  match m k.fs with
  | .ok (a, fs) => .ok (a, k.setFs fs)
  | .error e => .error (.sfs e)

theorem volume_ok {α : Type} {m : Sfs.Prog α} {a : α} {k : Kernel} (h : m k.fs = .ok (a, k.fs)) :
    volume m k = .ok (a, k) := by
  unfold volume
  rw [h]
  rfl

def kmalloc : Prog Bool := fun k =>
  .ok (k.kmallocs.headD true, { k with kmallocs := k.kmallocs.tail })

def deref (p : ℕ) : Prog Inode := fun k =>
  match k.inode p with
  | some n => .ok (n, k)
  | none => .error .dangling

def setInode (p : ℕ) (n : Option Inode) : Prog Unit := Code.modify fun k => k.setInode p n

def inodeCheck (n : Inode) : Prog Unit := do
  Code.assert (fun _ => n.openCount ≤ n.refCount ∧ 0 ≤ n.openCount) .inodeOrder
  Code.assert (fun _ => n.refCount < maxInodeCount ∧ n.openCount < maxInodeCount) .inodeLimit

/-- `__vop_op`. -/
def vopOp (p : ℕ) (op : Vop) : Prog Inode := do
  let n ← deref p
  Code.assert (fun _ => n.ops.has op = true) (.noOp op)
  inodeCheck n
  return n

/-- `inode_ref_inc`: the new count. -/
def inodeRefInc (p : ℕ) : Prog ℤ := do
  let n ← deref p
  setInode p (some { n with refCount := n.refCount + 1 })
  return n.refCount + 1

def inodeOpenInc (p : ℕ) : Prog Unit := do
  let n ← deref p
  setInode p (some { n with openCount := n.openCount + 1 })

def inodeKill (p : ℕ) : Prog Unit := do
  let n ← deref p
  Code.assert (fun _ => n.refCount = 0 ∧ n.openCount = 0) .inodeKill
  setInode p none

section Reclaim

def vopFsync (p : ℕ) : Prog ℤ := do
  let n ← vopOp p .vopFsync
  match n.info with
  | .sfs ino => volume (sfsFsync ino)
  | .dev _ => Code.panic .infoType

def vopTruncate (p : ℕ) (len : ℤ) : Prog ℤ := do
  let n ← vopOp p .vopTruncate
  match n.info with
  | .sfs ino => volume (sfsTruncfile ino len)
  | .dev _ => Code.panic .infoType

/-- `struct sfs_disk_inode` in memory. -/
def diskInode (b : Buf) : DiskInode where
  size := getU32 b
  type := (b 4).toNat + (b 5).toNat * 256
  nlinks := (b 6).toNat + (b 7).toNat * 256
  blocks := getU32 fun i => b (8 + i)
  direct i := if i < sfsNdirect then getU32 fun j => b (12 + i * 4 + j) else 0
  indirect := getU32 fun i => b (60 + i)

theorem diskInode_congr {b d : Buf} (h : ∀ i < sizeofDiskInode, b i = d i) :
    diskInode b = diskInode d := by
  have hs : sizeofDiskInode = 64 := rfl
  have hn : sfsNdirect = 12 := rfl
  rw [hs] at h
  unfold diskInode
  congr 1
  · exact getU32_congr fun k hk => h k (by omega)
  · rw [h 4 (by omega), h 5 (by omega)]
  · rw [h 6 (by omega), h 7 (by omega)]
  · exact getU32_congr fun k hk => h _ (by omega)
  · funext i
    split
    next hi => exact getU32_congr fun k hk => h _ (by omega)
    next => rfl
  · exact getU32_congr fun k hk => h _ (by omega)

/-- `kfree(sin->din)`. -/
def Fs.forget (s : Fs) (ino : ℕ) : Fs := s.setSin ino fun _ => ⟨diskInode (s.disk ino), false⟩

def sfsSetLinks (p ino : ℕ) : Prog Unit := Code.modify fun k =>
  { k with
    hash := Function.update k.hash ino (some p)
    fs := { k.fs with inodeList := ino :: k.fs.inodeList } }

def sfsRemoveLinks (ino : ℕ) : Prog Unit := Code.modify fun k =>
  { k with
    hash := Function.update k.hash ino none
    fs := { k.fs with inodeList := k.fs.inodeList.erase ino } }

/-- The part of `sfs_reclaim` that writes the inode back: the error. -/
def reclaimSync (p ino : ℕ) : Prog ℤ := do
  let ret ← (if ((← Code.get).fs.din ino).nlinks = 0 then vopTruncate p 0 else pure 0 : Prog ℤ)
  if ret ≠ 0 then return ret
  else if ((← Code.get).fs.sin ino).dirty then vopFsync p
  else return 0

/-- The part of `sfs_reclaim` that frees the blocks of an inode without links. -/
def reclaimBlocks (ino : ℕ) : Sfs.Prog Unit := do
  let din := (← Code.get).din ino
  if din.nlinks = 0 then
    sfsBlockFree ino
    if din.indirect ≠ 0 then sfsBlockFree din.indirect
    else return
  else return

/-- The part of `sfs_reclaim` that frees the inode. -/
def reclaimFree (p ino : ℕ) : Prog Unit := do
  sfsRemoveLinks ino
  volume (reclaimBlocks ino)
  Code.modify fun k => k.setFs (Fs.forget k.fs ino)
  inodeKill p

def sfsReclaim (p ino : ℕ) : Prog ℤ := do
  let n ← deref p
  Code.assert (fun _ => 0 < n.reclaimCount) .reclaimCount
  setInode p (some { n with reclaimCount := n.reclaimCount - 1 })
  if n.reclaimCount - 1 ≠ 0 ∨ n.refCount ≠ 0 then return -eBusy
  else
    let ret ← reclaimSync p ino
    if ret ≠ 0 then return ret
    else
      reclaimFree p ino
      return 0

def vopReclaim (p : ℕ) : Prog ℤ := do
  let n ← vopOp p .vopReclaim
  match n.info with
  | .sfs ino => sfsReclaim p ino
  | .dev _ => Code.panic .infoType

def inodeRefDec (p : ℕ) : Prog Unit := do
  let n ← deref p
  Code.assert (fun _ => 0 < n.refCount) .refCount
  setInode p (some { n with refCount := n.refCount - 1 })
  if n.refCount - 1 = 0 then
    let _ ← vopReclaim p
    return
  else return

/-- `sfs_close` and `dev_close`. -/
def vopClose (p : ℕ) : Prog ℤ := do
  let n ← vopOp p .vopClose
  match n.info with
  | .sfs _ => vopFsync p
  | .dev _ => return 0

def inodeOpenDec (p : ℕ) : Prog Unit := do
  let n ← deref p
  Code.assert (fun _ => 0 < n.openCount) .openCount
  setInode p (some { n with openCount := n.openCount - 1 })
  if n.openCount - 1 = 0 then
    let _ ← vopClose p
    return
  else return

end Reclaim

section Load

def lookupSfsNolock (ino : ℕ) : Prog (Option ℕ) := do
  match (← Code.get).hash ino with
  | none => return none
  | some p =>
    let c ← inodeRefInc p
    if c = 1 then
      let n ← deref p
      setInode p (some { n with reclaimCount := n.reclaimCount + 1 })
      return some p
    else return some p

def sfsGetOps (type : ℕ) : Option Ops :=
  if type = sfsTypeDir then some .dir
  else if type = sfsTypeFile then some .file
  else none

/-- `sfs_create_inode`: the error and the inode. -/
def sfsCreateInode (din : DiskInode) (ino : ℕ) : Prog (ℤ × ℕ) := do
  if ← kmalloc then
    match sfsGetOps din.type with
    | none => Code.panic .fileType
    | some ops =>
      let p := (← Code.get).brk
      Code.modify fun k => { k.setInode p (some ⟨.sfs ino, ops, 1, 0, 1⟩) with
        brk := p + 1
        fs := k.fs.setSin ino fun _ => ⟨din, false⟩ }
      return (0, p)
  else return (-eNoMem, 0)

/-- `sfs_load_inode`: the error and the inode. -/
def sfsLoadInode (ino : ℕ) : Prog (ℤ × ℕ) := do
  match ← lookupSfsNolock ino with
  | some p => return (0, p)
  | none =>
    if ← kmalloc then
      volume (assertInuse ino)
      let (ret, b) ← volume (sfsRbuf zeros 0 sizeofDiskInode ino 0)
      if ret ≠ 0 then return (ret, 0)
      else
        Code.assert (fun _ => (diskInode b).nlinks ≠ 0) .nlinks
        let (ret, p) ← sfsCreateInode (diskInode b) ino
        if ret ≠ 0 then return (ret, 0)
        else
          sfsSetLinks p ino
          return (0, p)
    else return (-eNoMem, 0)

def sfsGetRoot : Prog ℕ := do
  let (ret, p) ← sfsLoadInode sfsBlknRoot
  if ret ≠ 0 then Code.panic .loadRoot
  else return p

end Load

section Dir

/-- `struct sfs_disk_entry`. -/
structure Entry where
  ino : ℕ
  name : Str

/-- `sfs_dirent_read_nolock`: the error and the entry. -/
def sfsDirentReadNolock (sin slot : ℕ) : Prog (ℤ × Entry) := do
  Code.assert (fun k => (k.fs.din sin).type = sfsTypeDir ∧ slot < (k.fs.din sin).blocks) .direntRead
  let (ret, ino) ← volume (sfsBmapLoadNolock sin slot)
  if ret ≠ 0 then return (ret, ⟨0, []⟩)
  else
    volume (assertInuse ino)
    let (ret, b) ← volume (sfsRbuf zeros 0 sizeofDiskEntry ino 0)
    return (ret, ⟨getU32 b, cString (fun i => b (4 + i)) sfsMaxFnameLen⟩)

/-- The loop of `sfs_dirent_search_nolock` over `n` slots from `i` on. -/
def searchLoop (sin : ℕ) (name : Str) : ℕ → ℕ → Prog (ℤ × ℕ)
  | 0, _ => return (-eNoent, 0)
  | n + 1, i => do
    let (ret, entry) ← sfsDirentReadNolock sin i
    if ret ≠ 0 then return (ret, 0)
    else if entry.ino ≠ 0 ∧ name = entry.name then return (0, entry.ino)
    else searchLoop sin name n (i + 1)

/-- `sfs_dirent_search_nolock`: the error and `*ino_store`. -/
def sfsDirentSearchNolock (sin : ℕ) (name : Str) : Prog (ℤ × ℕ) := do
  Code.assert (fun _ => name.length ≤ sfsMaxFnameLen) .nameLength
  if ← kmalloc then searchLoop sin name ((← Code.get).fs.din sin).blocks 0
  else return (-eNoMem, 0)

/-- The loop of `sfs_dirent_findino_nolock` over `n` slots from `i` on. -/
def findinoLoop (sin ino : ℕ) : ℕ → ℕ → Prog (ℤ × Entry)
  | 0, _ => return (-eNoent, ⟨0, []⟩)
  | n + 1, i => do
    let (ret, entry) ← sfsDirentReadNolock sin i
    if ret ≠ 0 then return (ret, entry)
    else if entry.ino = ino then return (0, entry)
    else findinoLoop sin ino n (i + 1)

def sfsDirentFindinoNolock (sin ino : ℕ) : Prog (ℤ × Entry) := do
  findinoLoop sin ino ((← Code.get).fs.din sin).blocks 0

/-- `sfs_lookup_once`: the error and the inode. -/
def sfsLookupOnce (sin : ℕ) (name : Str) : Prog (ℤ × ℕ) := do
  let (ret, ino) ← sfsDirentSearchNolock sin name
  if ret ≠ 0 then return (ret, 0)
  else sfsLoadInode ino

/-- The loop of `sfs_getdirentry_sub_nolock` over `n` slots from `i` on. -/
def getdirentryLoop (sin : ℕ) : ℕ → ℕ → ℕ → Prog (ℤ × Entry)
  | 0, _, _ => return (-eNoent, ⟨0, []⟩)
  | n + 1, i, slot => do
    let (ret, entry) ← sfsDirentReadNolock sin i
    if ret ≠ 0 then return (ret, entry)
    else if entry.ino = 0 then getdirentryLoop sin n (i + 1) slot
    else if slot = 0 then return (0, entry)
    else getdirentryLoop sin n (i + 1) (slot - 1)

/-- `sfs_getdirentry` into the name of a `struct dirent`: the error, the number of bytes and the
name. The slot is an `int` that is compared as an `uint32_t`. -/
def sfsGetdirentry (sin : ℕ) (offset : ℤ) : Prog (ℤ × ℕ × Str) := do
  if ← kmalloc then
    let slot := (offset / sfsDentrySize).toNat % 2 ^ 32
    if offset < 0 ∨ offset % sfsDentrySize ≠ 0 then return (-eInval, 0, [])
    else if slot > ((← Code.get).fs.din sin).blocks then return (-eNoent, 0, [])
    else
      let (ret, entry) ← getdirentryLoop sin ((← Code.get).fs.din sin).blocks 0 slot
      if ret ≠ 0 then return (ret, 0, [])
      else return (0, sfsDentrySize, entry.name)
  else return (-eNoMem, 0, [])

/-- The inode of the volume at an address: `vop_info(node, sfs_inode)`. -/
def sfsInfo (p : ℕ) : Prog ℕ := do
  match (← deref p).info with
  | .sfs ino => return ino
  | .dev _ => Code.panic .infoType

def dotdot : Str := [46, 46]

/-- The loop of `sfs_namefile` with `resid` bytes left: the error and the names. A name takes one
byte at least, so that `n` rounds suffice for less than `n` bytes. -/
def namefileLoop : ℕ → ℕ → ℕ → List Str → Prog (ℤ × List Str)
  | 0, node, _, _ => do
    inodeRefDec node
    return (-eNoMem, [])
  | n + 1, node, resid, names => do
    let ino ← sfsInfo node
    let (ret, parent) ← sfsLookupOnce ino dotdot
    if ret ≠ 0 then
      inodeRefDec node
      return (ret, [])
    else
      inodeRefDec node
      if node = parent then
        inodeRefDec node
        return (0, names)
      else
        let sin ← sfsInfo parent
        Code.assert (fun k => ino ≠ sin ∧ (k.fs.din sin).type = sfsTypeDir) .namefile
        let (ret, entry) ← sfsDirentFindinoNolock sin ino
        if ret ≠ 0 then
          inodeRefDec parent
          return (ret, [])
        else if entry.name.length + 1 > resid then
          inodeRefDec parent
          return (-eNoMem, [])
        else namefileLoop n parent (resid - (entry.name.length + 1)) (entry.name :: names)

/-- `sfs_namefile` into a buffer of `resid` bytes: the error and the bytes. -/
def sfsNamefile (node resid : ℕ) : Prog (ℤ × Str) := do
  if resid ≤ 2 then return (-eNoMem, [])
  else if ← kmalloc then
    let _ ← inodeRefInc node
    let (ret, names) ← namefileLoop (resid - 1) node (resid - 2) []
    if ret ≠ 0 then return (ret, [])
    else return (0, 47 :: (names.map fun name => name ++ [47]).flatten)
  else return (-eNoMem, [])

/-- `sfs_lookup`: the error and the inode. -/
def sfsLookup (p ino : ℕ) (path : Str) : Prog (ℤ × ℕ) := do
  Code.assert (fun _ => path ≠ [] ∧ path.head? ≠ some 47) .lookupPath
  let _ ← inodeRefInc p
  if ((← Code.get).fs.din ino).type ≠ sfsTypeDir then
    inodeRefDec p
    return (-eNotdir, 0)
  else
    let (ret, q) ← sfsLookupOnce ino path
    inodeRefDec p
    if ret ≠ 0 then return (ret, 0)
    else return (0, q)

end Dir

section Vop

structure Stat where
  mode : ℕ
  nlinks : ℕ
  blocks : ℕ
  size : ℕ

/-- `sfs_gettype` and `dev_gettype`: the error and the type. -/
def vopGettype (p : ℕ) : Prog (ℤ × ℕ) := do
  let n ← vopOp p .vopGettype
  match n.info with
  | .dev _ => return (0, sIfchr)
  | .sfs ino =>
    let type := ((← Code.get).fs.din ino).type
    if type = sfsTypeDir then return (0, sIfdir)
    else if type = sfsTypeFile then return (0, sIfreg)
    else if type = sfsTypeLink then return (0, sIflnk)
    else Code.panic .fileType

/-- `sfs_fstat` and `dev_fstat`: the error and the record. -/
def vopFstat (p : ℕ) : Prog (ℤ × Stat) := do
  let n ← vopOp p .vopFstat
  let (ret, mode) ← vopGettype p
  if ret ≠ 0 then return (ret, ⟨0, 0, 0, 0⟩)
  else
    match n.info with
    | .dev _ => return (0, ⟨mode, 1, 0, 0⟩)
    | .sfs ino =>
      let din := (← Code.get).fs.din ino
      return (0, ⟨mode, din.nlinks, din.blocks, din.size⟩)

def sfsOpendir (flags : ℕ) : ℤ :=
  if flags &&& oAccmode ≠ 0 then -eIsdir
  else if has flags oAppend then -eIsdir
  else 0

/-- `dev_open`, with `stdin_open` and `stdout_open`. -/
def devOpen (d : Dev) (flags : ℕ) : ℤ :=
  if has flags (oCreat ||| oTrunc ||| oExcl ||| oAppend) then -eInval
  else
    match d with
    | .stdin => if flags ≠ 0 then -eInval else 0
    | .stdout => if flags ≠ oWronly then -eInval else 0

def vopOpen (p flags : ℕ) : Prog ℤ := do
  let n ← vopOp p .vopOpen
  match n.ops, n.info with
  | .dir, .sfs _ => return sfsOpendir flags
  | .file, .sfs _ => return 0
  | .dev, .dev d => return devOpen d flags
  | _, _ => Code.panic .infoType

/-- `sfs_io`: the error, the number of bytes and the buffer. -/
def sfsIo (ino : ℕ) (buf : Buf) (len : ℕ) (offset : ℤ) (write : Bool) : Prog (ℤ × ℕ × Buf) := do
  let (ret, alen, buf) ← volume (sfsIoNolock ino buf offset len write)
  Code.assert (fun _ => alen ≤ len) .iobufSkip
  return (ret, alen, buf)

/-- `stdin_io` for a read: the bytes that it gets before nobody wakes it up again. -/
def stdinRead (buf : Buf) (len : ℕ) : Prog (ℤ × ℕ × Buf) := fun k =>
  let l := k.stdin.take len
  .ok ((l.length, l.length, fun i => l.getD i (buf i)), { k with stdin := k.stdin.drop len })

/-- `vop_read` of `len` bytes at `offset`: the error, the number of bytes and the buffer. -/
def vopRead (p : ℕ) (buf : Buf) (len : ℕ) (offset : ℤ) : Prog (ℤ × ℕ × Buf) := do
  let n ← vopOp p .vopRead
  match n.info with
  | .sfs ino => sfsIo ino buf len offset false
  | .dev .stdin => stdinRead buf len
  | .dev .stdout => return (-eInval, 0, buf)

/-- `vop_write` of `len` bytes at `offset`: the error and the number of bytes. -/
def vopWrite (p : ℕ) (buf : Buf) (len : ℕ) (offset : ℤ) : Prog (ℤ × ℕ) := do
  let n ← vopOp p .vopWrite
  match n.info with
  | .sfs ino =>
    let (ret, alen, _) ← sfsIo ino buf len offset true
    return (ret, alen)
  | .dev .stdin => return (-eInval, 0)
  | .dev .stdout => return (0, len)

/-- `sfs_tryseek`, and `dev_tryseek` of a character device. -/
def vopTryseek (p : ℕ) (pos : ℤ) : Prog ℤ := do
  let n ← vopOp p .vopTryseek
  match n.info with
  | .sfs ino => volume (sfsTryseek ino pos)
  | .dev _ => return -eInval

def vopGetdirentry (p : ℕ) (offset : ℤ) : Prog (ℤ × ℕ × Str) := do
  let n ← vopOp p .vopGetdirentry
  match n.info with
  | .sfs ino => sfsGetdirentry ino offset
  | .dev _ => Code.panic .infoType

def vopNamefile (p resid : ℕ) : Prog (ℤ × Str) := do
  let n ← vopOp p .vopNamefile
  match n.info with
  | .sfs _ => sfsNamefile p resid
  | .dev _ => Code.panic .infoType

/-- `vop_create`, which no table has. -/
def vopCreate (p : ℕ) : Prog ℕ := do
  let _ ← vopOp p .vopCreate
  Code.panic .infoType

/-- `sfs_lookup` and `dev_lookup`: the error and the inode. -/
def vopLookup (p : ℕ) (path : Str) : Prog (ℤ × ℕ) := do
  let n ← vopOp p .vopLookup
  match n.info with
  | .sfs ino => sfsLookup p ino path
  | .dev _ =>
    if path ≠ [] then return (-eNoent, 0)
    else
      let _ ← inodeRefInc p
      return (0, p)

end Vop

end UCore.Vfs
