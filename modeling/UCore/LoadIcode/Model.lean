import UCore.Library.Code
import UCore.LoadIcode.Pages
import UCore.Sfs.Model
import UCore.UserMem.Exec
import UCore.Vmm.Model

/-! # Loading a program

The model of `load_icode` of `kern/process/proc.c`. The file is the list of its bytes; the disk and
`kmalloc` take their answers from lists, like the page allocator. Addresses and lengths are 64-bit
values, since the headers of the file give any.
-/

namespace UCore.LoadIcode

open Library PageTable Cow Fork UserMem Vmm

def eInvalElf : ℤ := 8

def elfMagic : ℕ := 0x464C457F
def elfPtLoad : ℕ := 1
def elfPfX : ℕ := 1
def elfPfW : ℕ := 2
def elfPfR : ℕ := 4

def ustacktop : UInt64 := 0x80000000
def ustacksize : UInt64 := 256 * 4096

def sstatusSpie : ℕ := 0x20
def sstatusSpp : ℕ := 0x100

/-- `PGSIZE` as a `size_t`. -/
def pageSize : UInt64 := 4096

/-- `ROUNDDOWN` of a `size_t`. -/
def roundDown (a n : UInt64) : UInt64 := a - a % n

/-! ## The headers -/

/-- A field of `n` bytes of a structure. -/
def field (data : List UInt8) (offset n : ℕ) : ℕ :=
  ofBytes (((data.drop offset).take n).map UInt8.toNat)

structure Elfhdr where
  eMagic : ℕ
  eEntry : UInt64
  ePhoff : UInt64
  ePhnum : ℕ

def sizeofElfhdr : ℕ := 64

def Elfhdr.ofBytes (data : List UInt8) : Elfhdr where
  eMagic := field data 0 4
  eEntry := .ofNat (field data 24 8)
  ePhoff := .ofNat (field data 32 8)
  ePhnum := field data 56 2

structure Proghdr where
  pType : ℕ
  pFlags : ℕ
  pOffset : UInt64
  pVa : UInt64
  pFilesz : UInt64
  pMemsz : UInt64

def sizeofProghdr : ℕ := 56

def Proghdr.ofBytes (data : List UInt8) : Proghdr where
  pType := field data 0 4
  pFlags := field data 4 4
  pOffset := .ofNat (field data 8 8)
  pVa := .ofNat (field data 16 8)
  pFilesz := .ofNat (field data 32 8)
  pMemsz := .ofNat (field data 40 8)

/-- `vm_flags` of a segment. -/
def Proghdr.vmFlags (ph : Proghdr) : ℕ :=
  let vmFlags := 0
  let vmFlags := if has ph.pFlags elfPfX then vmFlags ||| vmExec else vmFlags
  let vmFlags := if has ph.pFlags elfPfW then vmFlags ||| vmWrite else vmFlags
  if has ph.pFlags elfPfR then vmFlags ||| vmRead else vmFlags

/-- `perm` of a segment with these `vm_flags`. -/
def segmentPerm (vmFlags : ℕ) : ℕ :=
  let perm := pteU ||| pteV
  let perm := if has vmFlags vmRead then perm ||| pteR else perm
  let perm := if has vmFlags vmWrite then perm ||| (pteW ||| pteR) else perm
  if has vmFlags vmExec then perm ||| pteX else perm

/-! ## The state -/

/-- An open file: its bytes, what its blocks hold after the end, and the position. Each element of
`disk` is about one call of `file_read`: after how many bytes the disk fails, and with which error;
each element of `room` about one call of `vop_truncate`. -/
structure File where
  bytes : List UInt8
  rest : ℕ → UInt8
  pos : ℕ
  disk : List (ℕ × ℕ)
  room : List Bool

/-- The registers that `load_icode` sets; it clears the others. -/
structure Trapframe where
  sp : UInt64
  a0 : UInt64
  a1 : UInt64
  epc : UInt64
  status : ℕ

/-- Why the kernel does not survive. -/
inductive Panic
  | hasMm
  | pageRef
  | accessFault
  | mmMap
  | bss (ph : Proghdr)
  | overrun
  | fuel
  | exitMmap
  | stackPage
  | argvStore
  | pgfault (addr : ℕ)

/-- The running process in `load_icode`, with the memory. `mapped` records the header and the
address of every page of a segment; no function reads it. -/
structure Loader where
  mem : State
  mm : MmStruct
  hasMm : Bool
  file : File
  kmallocs : List Bool
  sstatus : ℕ
  tf : Trapframe
  mapped : List (ℕ × ℕ)

abbrev Prog := Code Panic Loader

def Loader.setMem (s : Loader) (m : State) : Loader := { s with mem := m }

def Loader.setFile (s : Loader) (f : File) : Loader := { s with file := f }

def kmalloc : Prog Bool := fun s =>
  match s.kmallocs with
  | [] => .ok (false, s)
  | b :: l => .ok (b, { s with kmallocs := l })

/-! ## The file -/

/-- `file_read`: the error and the bytes that were read. -/
def fileRead (len : ℕ) : Prog (ℤ × List UInt8) := fun s =>
  let f := s.file
  if f.pos ≥ Sfs.sfsMaxFileSize then .ok ((-eInval, []), s)
  else
    let data := (f.bytes.drop f.pos).take (min len (Sfs.sfsMaxFileSize - f.pos))
    match f.disk with
    | [] => .ok ((0, data), s.setFile { f with pos := f.pos + data.length })
    | (n, e) :: l =>
      if n < data.length then
        .ok ((-e, data.take n), s.setFile { f with pos := f.pos + n, disk := l })
      else .ok ((0, data), s.setFile { f with pos := f.pos + data.length, disk := l })

/-- The loop of `sysfile_read`, with the bytes that it copied. -/
def readLoop : ℕ → ℕ → List UInt8 → Prog (ℤ × List UInt8)
  | 0, _, copied => return (Files.transferred copied.length 0, copied)
  | n + 1, len, copied => do
    if len = 0 then return (Files.transferred copied.length 0, copied)
    else
      let (ret, data) ← fileRead (min iobufSize len)
      let copied := copied ++ data
      if ret ≠ 0 ∨ data = [] then return (Files.transferred copied.length ret, copied)
      else readLoop n (len - data.length) copied

/-- `sysfile_read` while `current->mm` is `NULL`: what it returns, and the bytes that it copies. -/
def sysfileRead (len : ℕ) : Prog (ℤ × List UInt8) := do
  if len = 0 then return (0, [])
  else if ← kmalloc then readLoop len len []
  else return (-eNoMem, [])

/-- `sysfile_seek` with `LSEEK_SET`. A position after the end makes the file longer. -/
def sysfileSeek (pos : ℤ) : Prog ℤ := fun s =>
  let f := s.file
  if pos < 0 ∨ pos ≥ Sfs.sfsMaxFileSize then .ok (-eInval, s)
  else if pos > f.bytes.length then
    match f.room with
    | true :: l =>
      let grown :=
        (List.range (pos.toNat - f.bytes.length)).map fun i => f.rest (f.bytes.length + i)
      .ok (0, s.setFile { f with bytes := f.bytes ++ grown, pos := pos.toNat, room := l })
    | _ :: l => .ok (-eNoMem, s.setFile { f with room := l })
    | [] => .ok (-eNoMem, s)
  else .ok (0, s.setFile { f with pos := pos.toNat })

/-! ## Pages -/

/-- A word of a page with these bytes. -/
def packWord (c : ℕ → ℕ) (i : ℕ) : ℕ := ofBytes ((List.range 8).map fun k => c (8 * i + k))

/-- The contents of a page with the bytes `c` from `off` to `off + n`. -/
def setBytes (f : ℕ → ℕ) (off n : ℕ) (c : ℕ → ℕ) : ℕ → ℕ :=
  packWord fun o => if off ≤ o ∧ o < off + n then c (o - off) else loadByte f o

/-- `memcpy` and `memset` to a page of the kernel; past its end they run into other memory. -/
def writePage (page : Option ℕ) (off n : ℕ) (c : ℕ → ℕ) : Prog Unit := fun s =>
  match page with
  | none => .error .overrun
  | some p =>
    if off + n ≤ pgsize then
      .ok ((), s.setMem (s.mem.setPage p (setBytes (s.mem.word p) off n c)))
    else .error .overrun

/-- `pgdir_alloc_page`. Entry 2 of a directory from `setup_pgdir` is a leaf, for the gigabyte where
the memory begins. What `get_pte` takes for its table are the first pages of the memory, which
belong to the firmware, and the load from there does not come back. -/
def pgdirAllocPage (la : UInt64) (perm : ℕ) : Prog (Option ℕ) := fun s =>
  if s.mem.allocPage.1.isSome ∧ pdx1 la.toNat = 2 then .error .accessFault
  else
    match s.mem.pgdirAllocPage s.mm.mm.pgdir la.toNat perm with
    | none => .error .pageRef
    | some (o, m) => .ok (o, s.setMem m)

def mmMap (addr len : UInt64) (vmFlags : ℕ) : Prog ℤ := do
  let memory ← kmalloc
  fun s =>
    match Vmm.mmMap s.mm addr len vmFlags memory with
    | none => .error .mmMap
    | some (ret, _, mm) => .ok (ret, { s with mm := mm })

/-! ## Segments -/

/-- The variables of the loops over the pages of a segment. -/
structure Vars where
  start : UInt64
  la : UInt64
  offset : ℤ
  page : Option ℕ
  ret : ℤ

/-- `size`, when the page ends at `la`. -/
def partSize (off la end' : UInt64) : UInt64 :=
  let size := pageSize - off
  if end' < la then size - (la - end') else size

/-- `pgdir_alloc_page` for header `i`, which is recorded. -/
def allocSegment (i : ℕ) (la : UInt64) (perm : ℕ) : Prog (Option ℕ) := do
  let page ← pgdirAllocPage la perm
  if page.isSome then Code.modify fun s => { s with mapped := s.mapped ++ [(i, la.toNat)] }
  return page

/-- One round of the loop over the pages with bytes of the file; `.inl` stands for the jump to
`bad_cleanup_mmap`. -/
def fileStep (i perm : ℕ) (end' : UInt64) (x : Vars) : Prog (Vars ⊕ ℤ ⊕ Vars) := do
  if x.start < end' then
    match ← allocSegment i x.la perm with
    | none => return .inr (.inl x.ret)
    | some page =>
      let off := x.start - x.la
      let la := x.la + pageSize
      let size := partSize off la end'
      let ret ← sysfileSeek x.offset
      if ret ≠ 0 then return .inr (.inl ret)
      else
        let (ret, data) ← sysfileRead size.toNat
        writePage (some page) off.toNat data.length fun o => (data.getD o 0).toNat
        if ret ≠ size.toNat then return .inr (.inl (-eInvalElf))
        else return .inl ⟨x.start + size, la, Sfs.offT (x.offset + size.toNat), some page, ret⟩
  else return .inr (.inr x)

/-- The rest of the last of these pages; `none` stands for `continue`. -/
def zeroRest (ph : Proghdr) (end' : UInt64) (x : Vars) : Prog (Option Vars) := do
  if x.start < x.la then
    if x.start = end' then return none
    else
      let off := x.start + pageSize - x.la
      let size := partSize off x.la end'
      writePage x.page off.toNat size.toNat fun _ => 0
      let start := x.start + size
      Code.assert (fun _ => (end' < x.la ∧ start = end') ∨ (x.la ≤ end' ∧ start = x.la)) (.bss ph)
      return some { x with start := start }
  else return some x

/-- One round of the loop over the pages of zeros. -/
def bssStep (i perm : ℕ) (end' : UInt64) (x : Vars) : Prog (Vars ⊕ ℤ ⊕ Vars) := do
  if x.start < end' then
    match ← allocSegment i x.la perm with
    | none => return .inr (.inl x.ret)
    | some page =>
      let off := x.start - x.la
      let la := x.la + pageSize
      let size := partSize off la end'
      writePage (some page) off.toNat size.toNat fun _ => 0
      return .inl { x with start := x.start + size, la := la, page := some page }
  else return .inr (.inr x)

/-- A loop over pages, with fuel for every byte. -/
def pageLoop (step : UInt64 → Vars → Prog (Vars ⊕ ℤ ⊕ Vars)) (end' : UInt64) (x : Vars) :
    Prog (ℤ ⊕ Vars) :=
  Code.loop .fuel (step end') (end'.toNat - x.start.toNat + 1) x

/-- A segment after `mm_map`. -/
def loadPages (i : ℕ) (ph : Proghdr) (page : Option ℕ) : Prog (ℤ ⊕ Option ℕ) := do
  let perm := segmentPerm ph.vmFlags
  let x : Vars := ⟨ph.pVa, roundDown ph.pVa pageSize, Sfs.offT ph.pOffset.toNat, page, -eNoMem⟩
  match ← pageLoop (fileStep i perm) (ph.pVa + ph.pFilesz) x with
  | .inl ret => return .inl ret
  | .inr x =>
    match ← zeroRest ph (ph.pVa + ph.pMemsz) x with
    | none => return .inr x.page
    | some x =>
      match ← pageLoop (bssStep i perm) (ph.pVa + ph.pMemsz) x with
      | .inl ret => return .inl ret
      | .inr x => return .inr x.page

def loadSegment (i : ℕ) (ph : Proghdr) (page : Option ℕ) : Prog (ℤ ⊕ Option ℕ) := do
  if ph.pFilesz > ph.pMemsz then return .inl (-eInvalElf)
  else
    let ret ← mmMap ph.pVa ph.pMemsz ph.vmFlags
    if ret ≠ 0 then return .inl ret
    else loadPages i ph page

/-- The loop over the program headers, from header `i` on. -/
def loadHeaders (phoff : ℤ) : ℕ → ℕ → Option ℕ → Prog (ℤ ⊕ Unit)
  | 0, _, _ => return .inr ()
  | n + 1, i, page => do
    let ret ← sysfileSeek (Sfs.offT (phoff + i * sizeofProghdr))
    if ret ≠ 0 then return .inl ret
    else
      let (ret, data) ← sysfileRead sizeofProghdr
      if ret ≠ sizeofProghdr then return .inl (-eInvalElf)
      else
        let ph := Proghdr.ofBytes data
        if ph.pType ≠ elfPtLoad then loadHeaders phoff n (i + 1) page
        else
          match ← loadSegment i ph page with
          | .inl ret => return .inl ret
          | .inr page => loadHeaders phoff n (i + 1) page

/-! ## The stack -/

/-- The assertion that the page `k` below the top of the stack gets memory. -/
def stackPage (k : UInt64) : Prog Unit := do
  let page ← pgdirAllocPage (ustacktop - k * pageSize) pteUser
  Code.assert (fun _ => page.isSome = true) .stackPage

def buildStack : Prog (ℤ ⊕ Unit) := do
  let ret ← mmMap (ustacktop - ustacksize) ustacksize (vmRead ||| vmWrite ||| vmStack)
  if ret ≠ 0 then return .inl ret
  else
    stackPage 1
    stackPage 2
    stackPage 3
    stackPage 4
    return .inr ()

/-- The page fault of a store of the kernel to user memory. -/
def pageFault (addr : ℕ) : Prog Unit := fun s =>
  match doPgfault s.mm.mm causeStorePageFault addr s.mem with
  | none => .error .pageRef
  | some (ret, mm, m) =>
    let s := { s with mm := { s.mm with mm := mm }, mem := m }
    if ret = 0 ∧ permitted s.mem s.mm.mm.pgdir addr true then .ok ((), s)
    else .error (.pgfault addr)

/-- A store of the kernel to user memory, which changes the contents of the page. -/
def storeUser (addr : ℕ) (change : (ℕ → ℕ) → ℕ → ℕ) : Prog Unit := do
  let s ← Code.get
  if ¬ permitted s.mem s.mm.mm.pgdir addr true then pageFault addr
  Code.modify fun s =>
    let page := pte2page (userPte s.mem s.mm.mm.pgdir addr)
    s.setMem (s.mem.setPage page (change (s.mem.word page)))

/-- `memcpy` to user memory. -/
def memcpyUser : List UInt8 → ℕ → Prog Unit
  | [], _ => return
  | b :: l, addr => do
    storeUser addr fun f => storeByte f (addr % pgsize) b.toNat
    memcpyUser l (addr + 1)

/-- Stores of 64-bit words to user memory. -/
def storeWords : List UInt64 → ℕ → Prog Unit
  | [], _ => return
  | w :: l, addr => do
    storeUser addr fun f => Function.update f (addr % pgsize / 8) w.toNat
    storeWords l (addr + 8)

/-- The string in a buffer, with the zero at its end. -/
def cString (buffer : List UInt8) : List UInt8 := buffer.takeWhile (· ≠ 0) ++ [0]

/-- The loop that copies the arguments to the stack: `ustack` and `argv_store`. -/
def pushArgs : List (List UInt8) → UInt64 → List UInt64 → Prog (UInt64 × List UInt64)
  | [], ustack, argvStore => return (ustack, argvStore)
  | arg :: kargv, ustack, argvStore => do
    let len := UInt64.ofNat (cString arg).length
    let ustack := ustack - len
    memcpyUser (cString arg) ustack.toNat
    pushArgs kargv ustack (argvStore ++ [ustack])

/-- The part of `load_icode` that passes the arguments. -/
def setupArgs (kargv : List (List UInt8)) (entry : UInt64) : Prog Unit := do
  let argc := UInt64.ofNat kargv.length
  let argvStore ← kmalloc
  Code.assert (fun _ => argvStore = true ∨ kargv = []) .argvStore
  let (ustack, argvStore) ← pushArgs kargv ustacktop []
  let ustack := roundDown ustack 8
  let ustack := ustack - 8 * (argc + 1)
  storeWords (argvStore ++ [0]) ustack.toNat
  Code.modify fun s =>
    let status := (s.sstatus ||| sstatusSpie) &&& (2 ^ 64 - 1 - sstatusSpp)
    { s with tf := { sp := ustack, a0 := argc, a1 := ustack, epc := entry, status := status } }

/-! ## `load_icode` -/

def setupPgdir : Prog Bool := fun s =>
  match s.mem.setupPgdir PageTable.bootPageTable with
  | (none, m) => .ok (false, s.setMem m)
  | (some q, m) =>
    .ok (true, { s with mem := m, mm := { s.mm with mm := { s.mm.mm with pgdir := q } } })

/-- From `bad_elf_cleanup_pgdir` on. -/
def badElf (ret : ℤ) : Prog ℤ := do
  Code.modify fun s => s.setMem (s.mem.putPgdir s.mm.mm)
  return ret

/-- From `bad_cleanup_mmap` on. -/
def badMmap (ret : ℤ) : Prog ℤ := do
  fun s =>
    match s.mem.exitMmap s.mm.mm with
    | none => .error .exitMmap
    | some m => .ok ((), s.setMem m)
  badElf ret

/-- `load_icode` after the directory was set up. -/
def loadElf (kargv : List (List UInt8)) : Prog ℤ := do
  let (ret, data) ← sysfileRead sizeofElfhdr
  if ret ≠ sizeofElfhdr then badElf (-eInvalElf)
  else
    let elf := Elfhdr.ofBytes data
    if elf.eMagic ≠ elfMagic then badElf (-eInvalElf)
    else
      match ← loadHeaders (Sfs.offT elf.ePhoff.toNat) elf.ePhnum 0 none with
      | .inl ret => badMmap ret
      | .inr () =>
        match ← buildStack with
        | .inl ret => badMmap ret
        | .inr () =>
          Code.modify fun s => { s with hasMm := true }
          setupArgs kargv elf.eEntry
          return 0

def loadIcode (kargv : List (List UInt8)) : Prog ℤ := do
  Code.assert (fun s => s.hasMm = false) .hasMm
  if ← kmalloc then
    Code.modify fun s => { s with mm := ⟨⟨[], none, 0⟩, 0⟩, mapped := [] }
    if ← setupPgdir then loadElf kargv
    else return -eNoMem
  else return -eNoMem

end UCore.LoadIcode
