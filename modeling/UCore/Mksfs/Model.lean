import UCore.Defs
import UCore.Vfs.Model

/-! # The image builder

The model of `tools/mksfs.c`. The constants that the tool declares anew are those of the kernel. A
pointer to a cached inode or block is its block number, and the host directory is what the system
calls of the tool return.
-/

namespace UCore.Mksfs

open Library Sfs Vfs

def sfsMaxNblks : ℕ := 1024 * 512

def sfsL0Nblks : ℕ := sfsNdirect
def sfsL1Nblks : ℕ := sfsBlkNentry + sfsL0Nblks
def sfsL2Nblks : ℕ := sfsBlkNentry * sfsBlkNentry + sfsL1Nblks
def sfsLnNblks : ℕ := sfsMaxFileSize / sfsBlksize

def hashListSize : ℕ := 1024

/-- `hash32`, and `hash64` of the low word. -/
def hash32 (val : ℕ) : ℕ := val % 2 ^ 32 * 0x9e370001 % 2 ^ 32 / 2 ^ 22

structure CacheInode where
  din : DiskInode
  dbIndirect : ℕ
  real : ℕ
  nblks : ℕ
  l1 : Option ℕ
  l2 : Option ℕ

/-- The bytes of a `struct inode`. -/
def CacheInode.bytes (ci : CacheInode) : Buf := fun i =>
  if i < 64 then ci.din.bytes i else putUint ci.dbIndirect (i - 64)

def sizeofInode : ℕ := 68

inductive Bug
  | outOfSpace
  | tooSmall
  | tooBig
  | nameTooLong
  | readLink
  | assertion
deriving DecidableEq

/-- `struct sfs_fs` with the image file and the static buffer of `add_entry`. The log has the calls
of `add_entry` (directory, name and inode) and `stored` those of `open_file` (inode and content). -/
structure Writer where
  ninos : ℕ
  nextIno : ℕ
  unusedBlocks : ℕ
  inode : ℕ → CacheInode
  inodes : ℕ → List ℕ
  cache : ℕ → Buf
  blocks : ℕ → List ℕ
  disk : ℕ → Buf
  entryName : Buf
  calls : List (ℕ × Str × ℕ)
  stored : List (ℕ × List UInt8)

abbrev Prog : Type → Type := Code Bug Writer

def Writer.setInode (m : Writer) (ino : ℕ) (f : CacheInode → CacheInode) : Writer :=
  { m with inode := Function.update m.inode ino (f (m.inode ino)) }

/-- A `uint32_t` is stored in a cached block. -/
def Writer.setEntry (m : Writer) (t k v : ℕ) : Writer :=
  { m with cache := Function.update m.cache t (memcpy (m.cache t) (k * 4) (putUint v) 0 4) }

section Alloc

def sfsAllocIno : Prog ℕ := do
  let m ← Code.get
  if m.nextIno < m.ninos then
    Code.modify fun m => { m with unusedBlocks := m.unusedBlocks - 1, nextIno := m.nextIno + 1 }
    return m.nextIno
  else Code.panic .outOfSpace

def allocCacheBlock (ino : ℕ) : Prog ℕ := do
  let b ← (if ino ≠ 0 then pure ino else sfsAllocIno : Prog ℕ)
  Code.modify fun m => { m with
    cache := Function.update m.cache b zeros
    blocks := Function.update m.blocks (hash32 ino) (b :: m.blocks (hash32 ino)) }
  return b

def searchCacheBlock (m : Writer) (ino : ℕ) : Option ℕ :=
  (m.blocks (hash32 ino)).find? fun b => decide (b = ino)

def allocCacheInode (real ino type : ℕ) : Prog ℕ := do
  let b ← (if ino ≠ 0 then pure ino else sfsAllocIno : Prog ℕ)
  Code.modify fun m => { m with
    inode := Function.update m.inode b ⟨⟨0, type, 0, 0, fun _ => 0, 0⟩, 0, real, 0, none, none⟩
    inodes := Function.update m.inodes (hash32 real) (b :: m.inodes (hash32 real)) }
  return b

def searchCacheInode (m : Writer) (real : ℕ) : Option ℕ :=
  (m.inodes (hash32 real)).find? fun b => decide ((m.inode b).real = real)

/-- `create_sfs` for an image file of `stSize` bytes. -/
def createSfs (stSize : ℕ) (disk : ℕ → Buf) : Except Bug Writer :=
  let n := stSize / sfsBlksize % 2 ^ 32
  let ninos := if sfsMaxNblks < n then sfsMaxNblks else n
  let nextIno := sfsBlknFreemap + (ninos + sfsBlkbits - 1) / sfsBlkbits
  if ninos ≤ nextIno then .error .tooSmall
  else
    (allocCacheInode 0 sfsBlknRoot sfsTypeDir
      { ninos, nextIno, unusedBlocks := ninos - nextIno
        inode := fun _ => ⟨⟨0, 0, 0, 0, fun _ => 0, 0⟩, 0, 0, 0, none, none⟩
        inodes := fun _ => []
        cache := fun _ => zeros
        blocks := fun _ => []
        disk, entryName := zeros, calls := [], stored := [] }).map Prod.snd

def writeBlock (data : Buf) (len ino : ℕ) : Prog Unit := do
  Code.assert (fun m => len ≤ sfsBlksize ∧ ino < m.ninos) .assertion
  Code.modify fun m => { m with disk := Function.update m.disk ino (memcpy zeros 0 data 0 len) }

end Alloc

section Blocks

/-- `update_cache`: the number that `*cbp` and `*inop` are set to. -/
def updateCache (cb : Option ℕ) (ino : ℕ) : Prog ℕ := do
  if ino = 0 then allocCacheBlock 0
  else if cb = some ino then return ino
  else
    Code.assert (fun m => searchCacheBlock m ino = some ino) .assertion
    return ino

/-- The branches of `append_block` that enter a block in the map of the file. -/
def mapBlock (file nblks ino : ℕ) : Prog Unit := do
  if nblks < sfsL0Nblks then
    Code.modify fun m => m.setInode file fun x =>
      { x with din := { x.din with direct := Function.update x.din.direct nblks ino } }
  else if nblks < sfsL1Nblks then
    let ci := (← Code.get).inode file
    let t ← updateCache ci.l1 ci.din.indirect
    Code.modify fun m => m.setInode file fun x =>
      { x with l1 := some t, din := { x.din with indirect := t } }
    Code.modify fun m => m.setEntry t (nblks - sfsL0Nblks) ino
  else if nblks < sfsL2Nblks then
    let ci := (← Code.get).inode file
    let t ← updateCache ci.l2 ci.dbIndirect
    Code.modify fun m => m.setInode file fun x => { x with l2 := some t, dbIndirect := t }
    let k := (nblks - sfsL1Nblks) / sfsBlkNentry
    let data2 := (← Code.get).cache t
    let u ← updateCache ci.l1 (getU32 fun i => data2 (k * 4 + i))
    Code.modify fun m => m.setEntry t k u
    Code.modify fun m => m.setInode file fun x => { x with l1 := some u }
    Code.modify fun m => m.setEntry u ((nblks - sfsL1Nblks) % sfsBlkNentry) ino
  else return

def appendBlock (file size ino : ℕ) : Prog Unit := do
  Code.assert (fun _ => size ≤ sfsBlksize) .assertion
  let nblks := ((← Code.get).inode file).nblks
  if sfsLnNblks ≤ nblks then Code.panic .tooBig
  else
    mapBlock file nblks ino
    Code.modify fun m => m.setInode file fun x => { x with
      nblks := x.nblks + 1
      din := { x.din with
        size := (x.din.size + size) % 2 ^ 32
        blocks := (x.din.blocks + 1) % 2 ^ 32 } }

def strBuf (name : Str) : Buf := fun i => name.getD i 0

/-- The bytes of a `struct sfs_entry`. -/
def entryBuf (ino : ℕ) (name : Buf) : Buf := fun i => if i < 4 then putUint ino i else name (i - 4)

def addEntry (current file : ℕ) (name : Str) : Prog Unit := do
  Code.assert (fun m => (m.inode current).din.type = sfsTypeDir ∧ name.length ≤ sfsMaxFnameLen)
    .assertion
  Code.modify fun m => { m with
    entryName := memcpy m.entryName 0 (strBuf name) 0 (name.length + 1) }
  let entryIno ← sfsAllocIno
  writeBlock (entryBuf file (← Code.get).entryName) sfsDentrySize entryIno
  appendBlock current sfsDentrySize entryIno
  Code.modify fun m => { m.setInode file fun x => { x with
      din := { x.din with nlinks := (x.din.nlinks + 1) % 2 ^ 16 } } with
    calls := (current, name, file) :: m.calls }

end Blocks

section Host

/-- The entries of a host directory, in the order of `readdir`, with the inode numbers of the
host. -/
inductive Host
  | done
  | file (name : Str) (real : ℕ) (content : List UInt8) (rest : Host)
  | link (name : Str) (real : ℕ) (target : List UInt8) (rest : Host)
  | dir (name : Str) (real : ℕ) (sub rest : Host)
  | other (name : Str) (rest : Host)

/-- The loop of `open_file` with `n` blocks left, the block `i` first. -/
def readLoop (file : ℕ) (content : List UInt8) : ℕ → ℕ → Prog Unit
  | 0, _ => return
  | n + 1, i => do
    let chunk := (content.drop (i * sfsBlksize)).take sfsBlksize
    let ino ← sfsAllocIno
    writeBlock (strBuf chunk) chunk.length ino
    appendBlock file chunk.length ino
    readLoop file content n (i + 1)

def openFile (file : ℕ) (content : List UInt8) : Prog Unit := do
  readLoop file content ((content.length + sfsBlksize - 1) / sfsBlksize) 0
  Code.modify fun m => { m with stored := (file, content) :: m.stored }

def openLink (file : ℕ) (target : List UInt8) : Prog Unit := do
  let ino ← sfsAllocIno
  if sfsBlksize ≤ target.length then Code.panic .readLink
  else
    writeBlock (strBuf target) target.length ino
    appendBlock file target.length ino

def addFile (current : ℕ) (name : Str) (real : ℕ) (content : List UInt8) : Prog Unit := do
  match searchCacheInode (← Code.get) real with
  | some file => addEntry current file name
  | none =>
    let file ← allocCacheInode real 0 sfsTypeFile
    openFile file content
    addEntry current file name

def addLink (current : ℕ) (name : Str) (real : ℕ) (target : List UInt8) : Prog Unit := do
  let file ← allocCacheInode real 0 sfsTypeLink
  openLink file target
  addEntry current file name

def dot : Str := [46]

/-- The tests of `open_dir` on a name: it is skipped. -/
def skips (name : Str) : Bool := name.head? = some 46

/-- The entries for the directory itself and its parent. -/
def addDots (current parent : ℕ) : Prog Unit := do
  addEntry current current dot
  addEntry current parent dotdot

/-- `add_dir`, where `walk` is the call of `open_dir` for the new directory. -/
def addDir (current : ℕ) (name : Str) (real : ℕ) (walk : ℕ → Prog Unit) : Prog Unit := do
  Code.assert (fun m => searchCacheInode m real = none) .assertion
  let d ← allocCacheInode real 0 sfsTypeDir
  walk d
  addEntry current d name

/-- The loop of `open_dir`. -/
def readDir (current : ℕ) : Host → Prog Unit
  | .done => return
  | .file name real content rest => do
    if skips name then readDir current rest
    else
      Code.assert (fun _ => name.length ≤ sfsMaxFnameLen) .nameTooLong
      addFile current name real content
      readDir current rest
  | .link name real target rest => do
    if skips name then readDir current rest
    else
      Code.assert (fun _ => name.length ≤ sfsMaxFnameLen) .nameTooLong
      addLink current name real target
      readDir current rest
  | .dir name real sub rest => do
    if skips name then readDir current rest
    else
      Code.assert (fun _ => name.length ≤ sfsMaxFnameLen) .nameTooLong
      addDir current name real fun d => do
        addDots d current
        readDir d sub
      readDir current rest
  | .other name rest => do
    if skips name then readDir current rest
    else
      Code.assert (fun _ => name.length ≤ sfsMaxFnameLen) .nameTooLong
      readDir current rest

def openDir (current parent : ℕ) (h : Host) : Prog Unit := do
  addDots current parent
  readDir current h

end Host

section Close

/-- The loop of `close_sfs` over the `n` blocks of the freemap from `ino` on: a bit is set in the
block when its index is from `start` to `end`. -/
def writeFreemap : ℕ → ℕ → Prog Unit
  | 0, _ => return
  | n + 1, ino => do
    let m ← Code.get
    let i := (ino - sfsBlknFreemap) * sfsBlkbits
    let start := if i < m.nextIno then m.nextIno - i else 0
    let stop := if m.ninos < i + sfsBlkbits then m.ninos - i else sfsBlkbits
    let bits := fun j => decide (m.nextIno < i + sfsBlkbits ∧ start ≤ j ∧ j < stop)
    writeBlock (bitmapByte bits) sfsBlksize ino
    writeFreemap n (ino + 1)

/-- The bytes of `super`. -/
def Writer.superBytes (m : Writer) : Buf := fun i =>
  if i < 4 then putUint sfsMagic i
  else if i < 8 then putUint m.ninos (i - 4)
  else if i < 12 then putUint m.unusedBlocks (i - 8)
  else strBuf (("simple file system".toList).map fun c => UInt8.ofNat c.toNat) (i - 12)

def flushBlocks : List ℕ → Prog Unit
  | [] => return
  | b :: l => do
    writeBlock ((← Code.get).cache b) sfsBlksize b
    flushBlocks l

def flushInodes : List ℕ → Prog Unit
  | [] => return
  | b :: l => do
    writeBlock ((← Code.get).inode b).bytes sizeofInode b
    flushInodes l

/-- The last loop of `close_sfs`, with `n` hash lists left. -/
def flushLists : ℕ → ℕ → Prog Unit
  | 0, _ => return
  | n + 1, i => do
    flushBlocks ((← Code.get).blocks i)
    flushInodes ((← Code.get).inodes i)
    flushLists n (i + 1)

def closeSfs : Prog Unit := do
  writeFreemap (((← Code.get).ninos + sfsBlkbits - 1) / sfsBlkbits) sfsBlknFreemap
  writeBlock (← Code.get).superBytes sizeofSuper sfsBlknSuper
  flushLists hashListSize 0

/-- `create_img` on an image file of `stSize` bytes. -/
def createImg (stSize : ℕ) (disk : ℕ → Buf) (home : Host) : Except Bug Writer := do
  let m ← createSfs stSize disk
  let (_, m) ← openDir sfsBlknRoot sfsBlknRoot home m
  let (_, m) ← closeSfs m
  return m

end Close

end UCore.Mksfs
