import UCore.Defs
import UCore.Fork.Model
import UCore.Library.Program

/-! # File system calls and user memory

The model of `user_mem_check` and the copy functions of `kern/mm/vmm.c`, and of the functions of
`kern/fs/sysfile.c` that touch user memory. The kernel reads and writes user memory through the page
table of the process; an access that the entry does not permit traps into `do_pgfault`, which takes
`mm_sem`. What lies below `sysfile.c` works on kernel memory and is a parameter.
-/

namespace UCore.UserMem

open Library PageTable Cow Fork

def vmStack : ℕ := 0x8

def kerntop : ℕ := kernbase + 0x7E00000

def eNoent : ℤ := 16

def iobufSize : ℕ := 4096
def fsMaxFpathLen : ℕ := 4096

def kernAccess (start end' : ℕ) : Prop := kernbase ≤ start ∧ start < end' ∧ end' ≤ kerntop

instance (start end' : ℕ) : Decidable (kernAccess start end') :=
  inferInstanceAs (Decidable (_ ∧ _ ∧ _))

/-- The running process in the kernel: physical memory, `current->mm` with its semaphore, the bytes
of kernel memory, and the file system. -/
structure Ctx (σ : Type) where
  mem : State
  mm : Option Mm
  mmSem : ℕ
  kmem : ℕ → ℕ
  fs : σ

section Check

/-- One round of the loop of `user_mem_check`. -/
def checkStep (end' : ℕ) (write : Bool) (x : ℕ × Mm) : (ℕ × Mm) ⊕ (Bool × Mm) :=
  if x.1 < end' then
    match x.2.findVma x.1 with
    | (none, mm) => .inr (false, mm)
    | (some vma, mm) =>
      if x.1 < vma.vmStart then .inr (false, mm)
      else if !has vma.vmFlags (if write then vmWrite else vmRead) then .inr (false, mm)
      else if write && has vma.vmFlags vmStack && decide (x.1 < vma.vmStart + pgsize) then
        .inr (false, mm)
      else .inl (vma.vmEnd, mm)
  else .inr (true, x.2)

/-- `user_mem_check` with an `mm_struct`. -/
def checkAreas (mm : Mm) (addr len : ℕ) (write : Bool) : Option (Bool × Mm) :=
  if userAccess addr ((addr + len) % 2 ^ 64) then
    iterate (checkStep ((addr + len) % 2 ^ 64) write) (len + 1) (addr, mm)
  else some (false, mm)

end Check

section Access

variable {σ : Type}

/-- The processor lets an access of the kernel to user memory pass. -/
def permitted (s : State) (d addr : ℕ) (write : Bool) : Bool :=
  has (userPte s d addr) pteV && has (userPte s d addr) (if write then pteW else pteR)

def userMemCheck (addr len : ℕ) (write : Bool) : Program (Ctx σ) Bool := fun s =>
  match s.mm with
  | some mm =>
    match checkAreas mm addr len write with
    | some (ok, mm) => .done ok { s with mm := some mm }
    | none => .lost
  | none => .done (decide (kernAccess addr ((addr + len) % 2 ^ 64))) s

def down : Program (Ctx σ) Unit := fun s =>
  if 0 < s.mmSem then .done () { s with mmSem := s.mmSem - 1 } else .stuck

def up : Program (Ctx σ) Unit := fun s => .done () { s with mmSem := s.mmSem + 1 }

def lockMm : Program (Ctx σ) Unit := fun s => if s.mm.isSome then down s else .done () s

def unlockMm : Program (Ctx σ) Unit := fun s => if s.mm.isSome then up s else .done () s

/-- A page fault of the kernel: `do_pgfault` for `current->mm`, and a panic when it fails. -/
def pageFault (write : Bool) (addr : ℕ) : Program (Ctx σ) Unit := fun s =>
  match s.mm with
  | none => .lost
  | some mm =>
    match mm.findVma addr with
    | (none, _) => .lost
    | (some vma, mm) =>
      if vma.vmStart > addr then .lost
      else if s.mmSem = 0 then .stuck
      else
        match doPgfault mm (if write then causeStorePageFault
          else causeLoadPageFault) addr s.mem with
        | none => .lost
        | some (ret, mm, mem) =>
          if ret = 0 then .done () { s with mm := some mm, mem := mem } else .lost

/-- The page table lets the access pass. -/
def Ctx.permits (s : Ctx σ) (addr : ℕ) (write : Bool) : Bool :=
  match s.mm with
  | some mm => permitted s.mem mm.pgdir addr write
  | none => false

def isKernel (addr : ℕ) : Prop := kernbase ≤ addr ∧ addr < kerntop

instance (addr : ℕ) : Decidable (isKernel addr) := inferInstanceAs (Decidable (_ ∧ _))

/-- An access of the kernel. It is made again after a page fault; when it faults again, it goes on
for ever. -/
def access (write : Bool) (addr : ℕ) : Program (Ctx σ) Unit := fun s =>
  if isKernel addr ∨ s.permits addr write then .done () s
  else
    match pageFault write addr s with
    | .done () t => if t.permits addr write then .done () t else .lost
    | .stuck => .stuck
    | .lost => .lost

def Ctx.byte (s : Ctx σ) (addr : ℕ) : ℕ :=
  if isKernel addr then s.kmem addr
  else
    match s.mm with
    | some mm => loadByte (s.mem.word (pte2page (userPte s.mem mm.pgdir addr))) (addr % pgsize)
    | none => 0

def Ctx.setByte (s : Ctx σ) (addr b : ℕ) : Ctx σ :=
  if isKernel addr then { s with kmem := Function.update s.kmem addr b }
  else
    match s.mm with
    | some mm =>
      let page := pte2page (userPte s.mem mm.pgdir addr)
      { s with mem := s.mem.setPage page (storeByte (s.mem.word page) (addr % pgsize) b) }
    | none => s

def load (addr : ℕ) : Program (Ctx σ) ℕ := do
  access false addr
  return (← Program.get).byte addr

def store (addr b : ℕ) : Program (Ctx σ) Unit := do
  access true addr
  Program.modify fun s => s.setByte addr b

/-- `memcpy` from `n` bytes of memory. -/
def loadBytes : ℕ → ℕ → Program (Ctx σ) (List ℕ)
  | 0, _ => return []
  | n + 1, addr => do
    let b ← load addr
    let l ← loadBytes n (addr + 1)
    return b :: l

/-- `memcpy` to memory. -/
def storeBytes : List ℕ → ℕ → Program (Ctx σ) Unit
  | [], _ => return
  | b :: l, addr => do
    store addr b
    storeBytes l (addr + 1)

def copyFromUser (src len : ℕ) (writable : Bool) : Program (Ctx σ) (Option (List ℕ)) := do
  if ← userMemCheck src len writable then
    let l ← loadBytes len src
    return some l
  else return none

def copyToUser (dst : ℕ) (src : List ℕ) : Program (Ctx σ) Bool := do
  if ← userMemCheck dst src.length true then
    storeBytes src dst
    return true
  else return false

/-- The inner loop of `copy_string`: the bytes up to the zero, or `alpart` bytes without one. -/
def loadPart : ℕ → ℕ → Program (Ctx σ) (Bool × List ℕ)
  | 0, _ => return (false, [])
  | n + 1, src => do
    let b ← load src
    if b = 0 then return (true, [])
    else
      let r ← loadPart n (src + 1)
      return (r.1, b :: r.2)

/-- The outer loop of `copy_string`; `none` when it returns 0. -/
def copyParts (maxn : ℕ) : ℕ → ℕ → ℕ → ℕ → Program (Ctx σ) (Option (List ℕ))
  | 0, _, _, _ => return none
  | n + 1, src, alpart, copied => do
    if ← userMemCheck src alpart false then
      let r ← loadPart alpart src
      if r.1 then return some r.2
      else if copied + alpart ≥ maxn then return none
      else
        let o ← copyParts maxn n (src + alpart) (min pgsize (maxn - (copied + alpart)))
          (copied + alpart)
        return o.map fun l => r.2 ++ l
    else return none

def copyString (src maxn : ℕ) : Program (Ctx σ) (Option (List ℕ)) :=
  copyParts maxn (maxn + 1) src (min (pgsize - src % pgsize) maxn) 0

end Access

/-- The functions below `sysfile.c`, with `kmalloc`. `curdir` gives the name of the device, the
names of the directories from the working directory up to the root, and the error of the lookup that
failed after these, or 0. The sizes are those of `struct stat` and `struct dirent`. -/
structure Files (σ : Type) where
  kmalloc : ℕ → σ → Bool × σ
  fileTestfd : ℤ → Bool → Bool → σ → Bool
  fileOpen : List ℕ → ℕ → σ → ℤ × σ
  fileRead : ℤ → ℕ → σ → ℤ × List ℕ × σ
  fileWrite : ℤ → List ℕ → σ → ℤ × ℕ × σ
  fileFstat : ℤ → σ → ℤ × List ℕ × σ
  fileGetdirentry : ℤ → List ℕ → σ → ℤ × List ℕ × σ
  curdir : σ → Option (List ℕ × List (List ℕ) × ℤ)
  read_le : ∀ fd n fs, (fileRead fd n fs).2.1.length ≤ n
  stat_length : ∀ fd fs, (fileFstat fd fs).2.1.length = 32
  dirent_length : ∀ fd offset fs, (fileGetdirentry fd offset fs).2.1.length = 264

namespace Files

variable {σ : Type} (F : Files σ)

/-- A function of the file system, which does not touch user memory. -/
def call {α : Type} (f : σ → α × σ) : Program (Ctx σ) α := fun s =>
  .done (f s.fs).1 { s with fs := (f s.fs).2 }

/-- `copy_path`: the path, or an error. -/
def copyPath (from' : ℕ) : Program (Ctx σ) (List ℕ ⊕ ℤ) := do
  if ← call (F.kmalloc (fsMaxFpathLen + 1)) then
    if (← Program.get).mm.isSome then
      lockMm
      let o ← copyString from' (fsMaxFpathLen + 1)
      unlockMm
      match o with
      | some path => return .inl path
      | none => return .inr (-eInval)
    else
      let r ← loadPart fsMaxFpathLen from'
      return .inl r.2
  else return .inr (-eNoMem)

def sysfileOpen (path openFlags : ℕ) : Program (Ctx σ) ℤ := do
  match ← F.copyPath path with
  | .inl path => call (F.fileOpen path openFlags)
  | .inr ret => return ret

/-- The result of `sysfile_read` and `sysfile_write`. -/
def transferred (copied : ℕ) (ret : ℤ) : ℤ := if copied ≠ 0 then copied else ret

/-- The part of `sysfile_read` that hands the bytes of one round to the process. -/
def deliver (base : ℕ) (bytes : List ℕ) : Program (Ctx σ) Bool := do
  if (← Program.get).mm.isSome then
    lockMm
    let ok ← copyToUser base bytes
    unlockMm
    return ok
  else
    storeBytes bytes base
    return true

/-- The loop of `sysfile_read`. -/
def readLoop (fd : ℤ) : ℕ → ℕ → ℕ → ℕ → Program (Ctx σ) ℤ
  | 0, _, _, copied => return transferred copied 0
  | n + 1, base, len, copied => do
    if len = 0 then return transferred copied 0
    else
      let (ret, bytes) ← call fun fs =>
        (((F.fileRead fd (min iobufSize len) fs).1, (F.fileRead fd (min iobufSize len) fs).2.1),
          (F.fileRead fd (min iobufSize len) fs).2.2)
      if bytes = [] then return transferred copied ret
      else if ← deliver base bytes then
        if ret ≠ 0 then return transferred (copied + bytes.length) ret
        else readLoop fd n (base + bytes.length) (len - bytes.length) (copied + bytes.length)
      else return transferred copied (if ret = 0 then -eInval else ret)

def sysfileRead (fd : ℤ) (base len : ℕ) : Program (Ctx σ) ℤ := do
  if len = 0 then return 0
  else if !F.fileTestfd fd true false (← Program.get).fs then return -eInval
  else if ← call (F.kmalloc iobufSize) then F.readLoop fd (len + 1) base len 0
  else return -eNoMem

/-- The part of `sysfile_write` that takes the bytes of one round from the process. -/
def collect (base len : ℕ) : Program (Ctx σ) (Option (List ℕ)) := do
  if (← Program.get).mm.isSome then
    lockMm
    let o ← copyFromUser base len false
    unlockMm
    return o
  else
    let l ← loadBytes len base
    return some l

/-- The loop of `sysfile_write`. -/
def writeLoop (fd : ℤ) : ℕ → ℕ → ℕ → ℕ → Program (Ctx σ) ℤ
  | 0, _, _, copied => return transferred copied 0
  | n + 1, base, len, copied => do
    if len = 0 then return transferred copied 0
    else
      match ← collect base (min iobufSize len) with
      | none => return transferred copied (-eInval)
      | some bytes =>
        let (ret, alen) ← call fun fs =>
          (((F.fileWrite fd bytes fs).1, (F.fileWrite fd bytes fs).2.1),
            (F.fileWrite fd bytes fs).2.2)
        if ret ≠ 0 ∨ alen = 0 then return transferred (copied + alen) ret
        else writeLoop fd n (base + alen) (len - alen) (copied + alen)

def sysfileWrite (fd : ℤ) (base len : ℕ) : Program (Ctx σ) ℤ := do
  if len = 0 then return 0
  else if !F.fileTestfd fd false true (← Program.get).fs then return -eInval
  else if ← call (F.kmalloc iobufSize) then F.writeLoop fd (len + 1) base len 0
  else return -eNoMem

def sysfileFstat (fd : ℤ) (stat : ℕ) : Program (Ctx σ) ℤ := do
  let (ret, bytes) ← call fun fs =>
    (((F.fileFstat fd fs).1, (F.fileFstat fd fs).2.1), (F.fileFstat fd fs).2.2)
  if ret ≠ 0 then return ret
  else
    lockMm
    let ok ← copyToUser stat bytes
    unlockMm
    return if ok then 0 else -eInval

/-- The loop of `sfs_namefile`, with the names still to be put before `ptr`: the new `ptr` and
`resid`, or an error. -/
def putNames (err : ℤ) : List (List ℕ) → ℕ → ℕ → Program (Ctx σ) (ℕ × ℕ ⊕ ℤ)
  | [], ptr, resid => return if err = 0 then .inl (ptr, resid) else .inr err
  | name :: names, ptr, resid => do
    if name.length + 1 > resid then return .inr (-eNoMem)
    else
      storeBytes (name ++ [47]) (ptr - (name.length + 1))
      putNames err names (ptr - (name.length + 1)) (resid - (name.length + 1))

/-- `sfs_namefile` into the buffer of `resid` bytes at `base`. -/
def sfsNamefile (names : List (List ℕ)) (err : ℤ) (base resid : ℕ) : Program (Ctx σ) ℤ := do
  if resid ≤ 2 then return -eNoMem
  else if ← call (F.kmalloc 260) then
    match ← putNames err names (base + resid) (resid - 2) with
    | .inr ret => return ret
    | .inl (ptr, left) =>
      let alen := resid - left - 2
      let bytes ← loadBytes alen ptr
      storeBytes bytes (base + 1)
      storeBytes [47] base
      storeBytes [0] (base + 1 + alen)
      return 0
  else return -eNoMem

def vfsGetcwd (buf len : ℕ) : Program (Ctx σ) ℤ := do
  match F.curdir (← Program.get).fs with
  | none => return -eNoent
  | some (devname, names, err) =>
    storeBytes (devname.take len) buf
    if len < devname.length then return -eNoMem
    else if len = devname.length then return -eNoMem
    else
      storeBytes [58] (buf + devname.length)
      F.sfsNamefile names err (buf + devname.length + 1) (len - devname.length - 1)

def sysfileGetcwd (buf len : ℕ) : Program (Ctx σ) ℤ := do
  if len = 0 then return -eInval
  else
    lockMm
    let ret ← if ← userMemCheck buf len true then F.vfsGetcwd buf len else pure (-eInval)
    unlockMm
    return ret

def sysfileGetdirentry (fd : ℤ) (direntp : ℕ) : Program (Ctx σ) ℤ := do
  if ← call (F.kmalloc 264) then
    lockMm
    let o ← copyFromUser direntp 8 true
    unlockMm
    match o with
    | none => return -eInval
    | some offset =>
      let (ret, bytes) ← call fun fs =>
        (((F.fileGetdirentry fd offset fs).1, (F.fileGetdirentry fd offset fs).2.1),
          (F.fileGetdirentry fd offset fs).2.2)
      if ret ≠ 0 then return ret
      else
        lockMm
        let ok ← copyToUser direntp bytes
        unlockMm
        return if ok then 0 else -eInval
  else return -eNoMem

end Files

/-- A file system call that touches user memory. -/
inductive Call
  | open' (path : UInt64) (openFlags : UInt32)
  | read (fd : ℤ) (base len : UInt64)
  | write (fd : ℤ) (base len : UInt64)
  | fstat (fd : ℤ) (stat : UInt64)
  | getcwd (buf len : UInt64)
  | getdirentry (fd : ℤ) (direntp : UInt64)

def Files.syscall {σ : Type} (F : Files σ) : Call → Program (Ctx σ) ℤ
  | .open' path openFlags => F.sysfileOpen path.toNat openFlags.toNat
  | .read fd base len => F.sysfileRead fd base.toNat len.toNat
  | .write fd base len => F.sysfileWrite fd base.toNat len.toNat
  | .fstat fd stat => F.sysfileFstat fd stat.toNat
  | .getcwd buf len => F.sysfileGetcwd buf.toNat len.toNat
  | .getdirentry fd direntp => F.sysfileGetdirentry fd direntp.toNat

end UCore.UserMem
