import UCore.Vfs.Model

/-! # Paths, files and processes

The model of `vfslookup.c`, `vfspath.c`, `vfsfile.c` and `vfs.c` of `kern/fs/vfs`, of
`kern/fs/file.c` and `kern/fs/fs.c`, and of the functions of `kern/process/proc.c` that handle the
tables of open files. The kernel is not preempted, and no process sleeps with a lock of the file
system, so that a call is one step, except that a process can sleep in a call on an open file.
-/

namespace UCore.Vfs

open Library Sfs

def filesStructNentry : ℕ := 72
section Table

def filesAt (f : ℕ) : Prog Files := fun k =>
  match k.files f with
  | some t => .ok (t, k)
  | none => .error .noFiles

def Kernel.setFiles (k : Kernel) (f : ℕ) (t : Option Files) : Kernel :=
  { k with files := Function.update k.files f t }

def setFiles (f : ℕ) (t : Option Files) : Prog Unit := Code.modify fun k => k.setFiles f t

def fileAt (f fd : ℕ) : Prog File := do
  let t ← filesAt f
  return t.fdArray fd

def Files.set (t : Files) (fd : ℕ) (file : File) : Files :=
  { t with fdArray := Function.update t.fdArray fd file }

def setFile (f fd : ℕ) (file : File) : Prog Unit := do
  let t ← filesAt f
  setFiles f (some (t.set fd file))

end Table

section Lookup

/-- Where a path starts. -/
inductive Base
  | cwd
  | bootfs
  | fsRoot
  | device (name : Str)

def slash : UInt8 := 47
def colon : UInt8 := 58

/-- The scan of `get_device`: where the path starts, and the rest of it. -/
def scanPath (path : Str) : Base × Str :=
  let head := path.takeWhile fun c => decide (c ≠ colon ∧ c ≠ slash)
  match path.drop head.length with
  | [] => (.cwd, path)
  | c :: rest =>
    if c = slash then
      if head = [] then (.bootfs, rest.dropWhile fun c => decide (c = slash)) else (.cwd, path)
    else (if head = [] then .fsRoot else .device head, rest.dropWhile fun c => decide (c = slash))

/-- The path that `get_device` leaves: it ends at the colon after the name of a device. -/
def cutPath (path : Str) : Str :=
  match (scanPath path).1 with
  | .device name => name
  | _ => path

/-- `vfs_get_curdir`: the error and the inode. -/
def vfsGetCurdir (cur : ℕ) : Prog (ℤ × ℕ) := do
  match (← filesAt cur).pwd with
  | some p =>
    let _ ← inodeRefInc p
    return (0, p)
  | none => return (-eNoent, 0)

/-- `vfs_get_bootfs`: the error and the inode. -/
def vfsGetBootfs : Prog (ℤ × ℕ) := do
  match (← Code.get).bootfs with
  | some p =>
    let _ ← inodeRefInc p
    return (0, p)
  | none => return (-eNoent, 0)

def stdinName : Str := [115, 116, 100, 105, 110]
def stdoutName : Str := [115, 116, 100, 111, 117, 116]
def disk0Name : Str := [100, 105, 115, 107, 48]

/-- `vfs_get_root`: the error and the inode. -/
def vfsGetRoot (name : Str) : Prog (ℤ × ℕ) := do
  if name = disk0Name then return (0, ← sfsGetRoot)
  else if name = stdinName ∨ name = stdoutName then
    let p := (← Code.get).devnode (if name = stdinName then .stdin else .stdout)
    let _ ← inodeRefInc p
    return (0, p)
  else return (-eNoDev, 0)

/-- `get_device`: the error, the inode to start from and the rest of the path. -/
def getDevice (cur : ℕ) (path : Str) : Prog (ℤ × ℕ × Str) := do
  match scanPath path with
  | (.cwd, subpath) =>
    let (ret, p) ← vfsGetCurdir cur
    return (ret, p, subpath)
  | (.device name, subpath) =>
    let (ret, p) ← vfsGetRoot name
    return (ret, p, subpath)
  | (.bootfs, subpath) =>
    let (ret, p) ← vfsGetBootfs
    return (ret, p, subpath)
  | (.fsRoot, subpath) =>
    let (ret, p) ← vfsGetCurdir cur
    if ret ≠ 0 then return (ret, 0, subpath)
    else
      match (← deref p).info with
      | .dev _ => Code.panic .noFs
      | .sfs _ =>
        let root ← sfsGetRoot
        inodeRefDec p
        return (0, root, subpath)

/-- `vfs_lookup`: the error and the inode. -/
def vfsLookup (cur : ℕ) (path : Str) : Prog (ℤ × ℕ) := do
  let (ret, p, subpath) ← getDevice cur path
  if ret ≠ 0 then return (ret, 0)
  else if subpath ≠ [] then
    let (ret, q) ← vopLookup p subpath
    inodeRefDec p
    return (ret, q)
  else return (0, p)

/-- `vfs_lookup_parent`: the error and the inode. -/
def vfsLookupParent (cur : ℕ) (path : Str) : Prog (ℤ × ℕ) := do
  let (ret, p, _) ← getDevice cur path
  return (ret, p)

end Lookup

section Open

/-- The part of `vfs_open` that opens an inode: the error and the inode. -/
def vfsOpenNode (node flags : ℕ) : Prog (ℤ × ℕ) := do
  let ret ← vopOpen node flags
  if ret ≠ 0 then
    inodeRefDec node
    return (ret, 0)
  else
    inodeOpenInc node
    let ret ← (if has flags oTrunc ∨ has flags oCreat then vopTruncate node 0 else pure 0 : Prog ℤ)
    if ret ≠ 0 then
      inodeOpenDec node
      inodeRefDec node
      return (ret, 0)
    else return (0, node)

/-- `vfs_open`: the error and the inode. -/
def vfsOpen (cur : ℕ) (path : Str) (flags : ℕ) : Prog (ℤ × ℕ) := do
  let mode := flags &&& oAccmode
  if mode = oAccmode then return (-eInval, 0)
  else if has flags oTrunc ∧ mode = 0 then return (-eInval, 0)
  else
    let (ret, node) ← vfsLookup cur path
    if ret ≠ 0 then
      if ret = -eNoent ∧ has flags oCreat then
        let (ret, dir) ← vfsLookupParent cur (cutPath path)
        if ret ≠ 0 then return (ret, 0)
        else
          let node ← vopCreate dir
          vfsOpenNode node flags
      else return (ret, 0)
    else if has flags oExcl ∧ has flags oCreat then return (-eExists, 0)
    else vfsOpenNode node flags

def vfsClose (node : ℕ) : Prog Unit := do
  inodeOpenDec node
  inodeRefDec node

end Open

section Cwd

/-- `vfs_set_curdir` of an inode. -/
def vfsSetCurdir (cur dir : ℕ) : Prog ℤ := do
  let old := (← filesAt cur).pwd
  if old = some dir then return 0
  else
    let (ret, type) ← vopGettype dir
    if ret ≠ 0 then return ret
    else if type ≠ sIfdir then return -eNotdir
    else
      let _ ← inodeRefInc dir
      setFiles cur (some { ← filesAt cur with pwd := some dir })
      match old with
      | some p =>
        inodeRefDec p
        return 0
      | none => return 0

def vfsChdir (cur : ℕ) (path : Str) : Prog ℤ := do
  let (ret, node) ← vfsLookup cur path
  if ret ≠ 0 then return ret
  else
    let ret ← vfsSetCurdir cur node
    inodeRefDec node
    return ret

/-- The part of `vfs_getcwd` that writes into a buffer of `len` bytes: the error and the bytes. -/
def getcwdMove (node len : ℕ) : Prog (ℤ × Str) := do
  if len < disk0Name.length then return (-eNoMem, disk0Name.take len)
  else if len < disk0Name.length + 1 then return (-eNoMem, disk0Name)
  else
    let (ret, path) ← vopNamefile node (len - (disk0Name.length + 1))
    return (ret, disk0Name ++ colon :: path)

/-- `vfs_getcwd`: the error and the bytes. -/
def vfsGetcwd (cur len : ℕ) : Prog (ℤ × Str) := do
  let (ret, node) ← vfsGetCurdir cur
  if ret ≠ 0 then return (ret, [])
  else
    match (← deref node).info with
    | .dev _ => Code.panic .noFs
    | .sfs _ =>
      let (ret, path) ← getcwdMove node len
      inodeRefDec node
      return (ret, path)

end Cwd

section FdArray

def noFd : ℤ := -100

/-- The first free entry of `n` entries from `fd` on. -/
def firstNone (t : Files) : ℕ → ℕ → Option ℕ
  | 0, _ => none
  | n + 1, fd => if (t.fdArray fd).status = .none then some fd else firstNone t n (fd + 1)

/-- The entry that `fd_array_alloc` takes, or an error. -/
def fdArrayFind (t : Files) (fd : ℤ) : ℤ ⊕ ℕ :=
  if fd = noFd then
    match firstNone t filesStructNentry 0 with
    | some fd => .inr fd
    | none => .inl (-eMaxOpen)
  else if 0 ≤ fd ∧ fd < filesStructNentry then
    if (t.fdArray fd.toNat).status = .none then .inr fd.toNat else .inl (-eBusy)
  else .inl (-eInval)

/-- `fd_array_alloc`: the error and the entry. -/
def fdArrayAlloc (cur : ℕ) (fd : ℤ) : Prog (ℤ × ℕ) := do
  match fdArrayFind (← filesAt cur) fd with
  | .inl ret => return (ret, 0)
  | .inr fd =>
    let file ← fileAt cur fd
    Code.assert (fun _ => file.openCount = 0) .fdAlloc
    setFile cur fd { file with status := .init, node := none }
    return (0, fd)

def nodeOf (file : File) : Prog ℕ :=
  match file.node with
  | some p => return p
  | none => Code.panic .noNode

def fdArrayFree (f fd : ℕ) : Prog Unit := do
  let file ← fileAt f fd
  Code.assert (fun _ => file.status = .init ∨ file.status = .closed) .fdFree
  Code.assert (fun _ => file.openCount = 0) .fdFree
  if file.status = .closed then
    vfsClose (← nodeOf file)
    setFile f fd { file with status := .none }
  else setFile f fd { file with status := .none }

def fdArrayAcquire (f fd : ℕ) : Prog Unit := do
  let file ← fileAt f fd
  Code.assert (fun _ => file.status = .opened) .fdAcquire
  setFile f fd { file with openCount := file.openCount + 1 }

def fdArrayRelease (f fd : ℕ) : Prog Unit := do
  let file ← fileAt f fd
  Code.assert (fun _ => file.status = .opened ∨ file.status = .closed) .fdRelease
  Code.assert (fun _ => 0 < file.openCount) .fdRelease
  setFile f fd { file with openCount := file.openCount - 1 }
  if file.openCount - 1 = 0 then fdArrayFree f fd else return

def fdArrayOpen (f fd : ℕ) : Prog Unit := do
  let file ← fileAt f fd
  Code.assert (fun _ => file.status = .init ∧ file.node ≠ none) .fdOpen
  setFile f fd { file with status := .opened, openCount := file.openCount + 1 }

def fdArrayClose (f fd : ℕ) : Prog Unit := do
  let file ← fileAt f fd
  Code.assert (fun _ => file.status = .opened) .fdClose
  Code.assert (fun _ => 0 < file.openCount) .fdClose
  setFile f fd { file with status := .closed, openCount := file.openCount - 1 }
  if file.openCount - 1 = 0 then fdArrayFree f fd else return

/-- `fd_array_dup` from the entry `from'` to the entry `fd` of the table `f`. -/
def fdArrayDup (f fd : ℕ) (from' : File) : Prog Unit := do
  let file ← fileAt f fd
  Code.assert (fun _ => file.status = .init ∧ from'.status = .opened) .fdDup
  let p ← nodeOf from'
  let _ ← inodeRefInc p
  inodeOpenInc p
  setFile f fd { file with
    pos := from'.pos, readable := from'.readable, writable := from'.writable, node := some p }
  fdArrayOpen f fd

/-- `fd2file`: the error and the entry. -/
def fd2file (cur : ℕ) (fd : ℤ) : Prog (ℤ × ℕ) := do
  let t ← filesAt cur
  if 0 ≤ fd ∧ fd < filesStructNentry ∧ (t.fdArray fd.toNat).status = .opened then
    return (0, fd.toNat)
  else return (-eInval, 0)

end FdArray

section File

/-- The part of `file_open` from the opened inode on. -/
def fileInstall (cur fd node flags : ℕ) (pos : ℤ) : Prog ℤ := do
  let file ← fileAt cur fd
  let mode := flags &&& oAccmode
  setFile cur fd { file with
    pos := pos, node := some node
    readable := decide (mode ≠ oWronly), writable := decide (mode ≠ 0) }
  fdArrayOpen cur fd
  return fd

def fileOpen (cur : ℕ) (path : Str) (flags : ℕ) : Prog ℤ := do
  if flags &&& oAccmode = oAccmode then return -eInval
  else
    let (ret, fd) ← fdArrayAlloc cur noFd
    if ret ≠ 0 then return ret
    else
      let (ret, node) ← vfsOpen cur path flags
      if ret ≠ 0 then
        fdArrayFree cur fd
        return ret
      else if has flags oAppend then
        let (ret, stat) ← vopFstat node
        if ret ≠ 0 then
          vfsClose node
          fdArrayFree cur fd
          return ret
        else fileInstall cur fd node flags stat.size
      else fileInstall cur fd node flags 0

def fileClose (cur : ℕ) (fd : ℤ) : Prog ℤ := do
  let (ret, fd) ← fd2file cur fd
  if ret ≠ 0 then return ret
  else
    fdArrayClose cur fd
    return 0

/-- A call on the entry of an open file, which is acquired for it. -/
def withFile {α : Type} (cur fd : ℕ) (body : Prog α) : Prog α := do
  fdArrayAcquire cur fd
  let a ← body
  fdArrayRelease cur fd
  return a

/-- The position moves by the bytes that were transferred. -/
def advance (cur fd copied : ℕ) : Prog Unit := do
  let file ← fileAt cur fd
  if file.status = .opened then setFile cur fd { file with pos := offT (file.pos + copied) }
  else return

/-- `file_read` of an acquired entry: the error, `*copied_store` and the buffer. -/
def readBody (cur fd : ℕ) (buf : Buf) (len : ℕ) : Prog (ℤ × ℕ × Buf) := do
  let file ← fileAt cur fd
  let (ret, copied, buf) ← vopRead (← nodeOf file) buf len file.pos
  advance cur fd copied
  return (ret, copied, buf)

def fileRead (cur : ℕ) (fd : ℤ) (buf : Buf) (len : ℕ) : Prog (ℤ × ℕ × Buf) := do
  let (ret, fd) ← fd2file cur fd
  if ret ≠ 0 then return (ret, 0, buf)
  else if (← fileAt cur fd).readable = false then return (-eInval, 0, buf)
  else withFile cur fd (readBody cur fd buf len)

/-- `file_write` of an acquired entry: the error and `*copied_store`. -/
def writeBody (cur fd : ℕ) (buf : Buf) (len : ℕ) : Prog (ℤ × ℕ) := do
  let file ← fileAt cur fd
  let (ret, copied) ← vopWrite (← nodeOf file) buf len file.pos
  advance cur fd copied
  return (ret, copied)

def fileWrite (cur : ℕ) (fd : ℤ) (buf : Buf) (len : ℕ) : Prog (ℤ × ℕ) := do
  let (ret, fd) ← fd2file cur fd
  if ret ≠ 0 then return (ret, 0)
  else if (← fileAt cur fd).writable = false then return (-eInval, 0)
  else withFile cur fd (writeBody cur fd buf len)

def lseekSet : ℤ := 0
def lseekCur : ℤ := 1
def lseekEnd : ℤ := 2

/-- The position that a seek is for: the error and the position. -/
def seekTarget (file : File) (node : ℕ) (pos whence : ℤ) : Prog (ℤ × ℤ) := do
  if whence = lseekSet then return (0, pos)
  else if whence = lseekCur then return (0, offT (pos + file.pos))
  else if whence = lseekEnd then
    let (ret, stat) ← vopFstat node
    return (ret, offT (pos + stat.size))
  else return (-eInval, pos)

/-- `file_seek` of an acquired entry. -/
def seekBody (cur fd : ℕ) (pos whence : ℤ) : Prog ℤ := do
  let file ← fileAt cur fd
  let node ← nodeOf file
  let (ret, pos) ← seekTarget file node pos whence
  if ret ≠ 0 then return ret
  else
    let ret ← vopTryseek node pos
    if ret ≠ 0 then return ret
    else
      setFile cur fd { ← fileAt cur fd with pos := pos }
      return 0

def fileSeek (cur : ℕ) (fd pos whence : ℤ) : Prog ℤ := do
  let (ret, fd) ← fd2file cur fd
  if ret ≠ 0 then return ret
  else withFile cur fd (seekBody cur fd pos whence)

/-- `file_fstat` of an acquired entry. -/
def fstatBody (cur fd : ℕ) : Prog (ℤ × Stat) := do
  vopFstat (← nodeOf (← fileAt cur fd))

def fileFstat (cur : ℕ) (fd : ℤ) : Prog (ℤ × Stat) := do
  let (ret, fd) ← fd2file cur fd
  if ret ≠ 0 then return (ret, ⟨0, 0, 0, 0⟩)
  else withFile cur fd (fstatBody cur fd)

/-- `file_fsync` of an acquired entry. -/
def fsyncBody (cur fd : ℕ) : Prog ℤ := do
  vopFsync (← nodeOf (← fileAt cur fd))

def fileFsync (cur : ℕ) (fd : ℤ) : Prog ℤ := do
  let (ret, fd) ← fd2file cur fd
  if ret ≠ 0 then return ret
  else withFile cur fd (fsyncBody cur fd)

/-- `file_getdirentry` of an acquired entry: the error, `direntp->offset` and the name. -/
def getdirentryBody (cur fd : ℕ) (offset : ℤ) : Prog (ℤ × ℤ × Str) := do
  let (ret, used, name) ← vopGetdirentry (← nodeOf (← fileAt cur fd)) offset
  if ret = 0 then return (0, offT (offset + used), name)
  else return (ret, offset, name)

def fileGetdirentry (cur : ℕ) (fd offset : ℤ) : Prog (ℤ × ℤ × Str) := do
  let (ret, fd) ← fd2file cur fd
  if ret ≠ 0 then return (ret, offset, [])
  else withFile cur fd (getdirentryBody cur fd offset)

def fileDup (cur : ℕ) (fd1 fd2 : ℤ) : Prog ℤ := do
  let (ret, fd1) ← fd2file cur fd1
  if ret ≠ 0 then return ret
  else
    let (ret, fd2) ← fdArrayAlloc cur fd2
    if ret ≠ 0 then return ret
    else
      fdArrayDup cur fd2 (← fileAt cur fd1)
      return fd2

end File

section Fork

/-- `fd_array_init`. -/
def emptyFile : File where
  status := .none
  readable := false
  writable := false
  pos := 0
  node := none
  openCount := 0

def filesCreate : Prog (Option ℕ) := do
  if ← kmalloc then
    let f := (← Code.get).fbrk
    Code.modify fun k => { k with
      files := Function.update k.files f (some ⟨none, fun _ => emptyFile, 1⟩)
      fbrk := f + 1 }
    return some f
  else return none

/-- One round of the loop of `files_destroy`. -/
def destroyEntry (f fd : ℕ) : Prog Unit := do
  if (← fileAt f fd).status = .opened then fdArrayClose f fd else return

/-- The loop of `files_destroy` over `n` entries from `fd` on. -/
def destroyLoop (f : ℕ) : ℕ → ℕ → Prog Unit
  | 0, _ => return
  | n + 1, fd => do
    destroyEntry f fd
    let file ← fileAt f fd
    Code.assert (fun _ => file.status = .none) .filesDestroy
    destroyLoop f n (fd + 1)

/-- The part of `files_destroy` that gives up the working directory. -/
def destroyPwd (f : ℕ) : Prog Unit := do
  match (← filesAt f).pwd with
  | some p => inodeRefDec p
  | none => return

def filesDestroy (f : ℕ) : Prog Unit := do
  destroyPwd f
  destroyLoop f filesStructNentry 0
  setFiles f none

/-- One round of the loop of `dup_files`. -/
def dupEntry (dst src fd : ℕ) : Prog Unit := do
  let file ← fileAt src fd
  if file.status = .opened then
    setFile dst fd { ← fileAt dst fd with status := .init }
    fdArrayDup dst fd file
  else return

/-- The loop of `dup_files` over `n` entries from `fd` on. -/
def dupLoop (dst src : ℕ) : ℕ → ℕ → Prog Unit
  | 0, _ => return
  | n + 1, fd => do
    dupEntry dst src fd
    dupLoop dst src n (fd + 1)

/-- The part of `dup_files` that copies the working directory. -/
def dupPwd (dst src : ℕ) : Prog Unit := do
  let pwd := (← filesAt src).pwd
  setFiles dst (some { ← filesAt dst with pwd := pwd })
  match pwd with
  | some p =>
    let _ ← inodeRefInc p
    return
  | none => return

def dupFiles (dst src : ℕ) : Prog Unit := do
  dupPwd dst src
  dupLoop dst src filesStructNentry 0

/-- `copy_files` of a process with the table `cur`: the error and the table of the child. -/
def copyFiles (cur : ℕ) (share : Bool) : Prog (ℤ × ℕ) := do
  if share then
    let t ← filesAt cur
    setFiles cur (some { t with nlinks := t.nlinks + 1 })
    return (0, cur)
  else
    match ← filesCreate with
    | none => return (-eNoMem, 0)
    | some f =>
      dupFiles f cur
      return (0, f)

def putFiles (f : ℕ) : Prog Unit := do
  let t ← filesAt f
  setFiles f (some { t with nlinks := t.nlinks - 1 })
  if t.nlinks - 1 = 0 then filesDestroy f else return

end Fork

end UCore.Vfs
