import UCore.Cow.Model
import UCore.PageTable.Exit

/-! # Processes with copy on write

The processes with their address spaces: the part of `copy_mm` that duplicates the parent's, the
part of `do_exit` that gives it back, and loads and stores of user code, which enter `do_pgfault`
when the page is missing or not writable.
-/

namespace UCore.Fork

open Library PageTable Cow

def causeLoadPageFault : ℕ := 0xd

/-- `dup_mmap` from the area list `todo` on, which is in the order of `list_prev`. The list
`kmallocs` says which calls of `vma_create` get memory; `none` when an assertion fails. -/
def dupMmap (pgdir : ℕ) : List Vma → List Bool → Mm → State → Option (ℤ × Mm × State)
  | [], _, to', s => some (0, to', s)
  | _ :: _, [], to', s => some (-eNoMem, to', s)
  | _ :: _, false :: _, to', s => some (-eNoMem, to', s)
  | vma :: todo, true :: kmallocs, to', s =>
    match insertVmaStruct to'.mmapList vma with
    | none => none
    | some list =>
      match copyRange to'.pgdir pgdir vma.vmStart vma.vmEnd true s with
      | none => none
      | some (ret, s) =>
        if ret ≠ 0 then some (-eNoMem, { to' with mmapList := list }, s)
        else dupMmap pgdir todo kmallocs { to' with mmapList := list } s

/-- The memory and the address space of each process. -/
structure Kernel where
  mem : State
  procs : ℕ → Option Mm

/-- The byte at an offset of a page. -/
def loadByte (f : ℕ → ℕ) (o : ℕ) : ℕ := f (o / 8) / 256 ^ (o % 8) % 256

/-- The contents of a page after a store of one byte. -/
def storeByte (f : ℕ → ℕ) (o b : ℕ) : ℕ → ℕ :=
  Function.update f (o / 8) (f (o / 8) - loadByte f o * 256 ^ (o % 8) + b * 256 ^ (o % 8))

/-- The entry that the processor finds for an access from user mode. -/
def userPte (s : State) (d addr : ℕ) : ℕ :=
  if isVpn (addr / pgsize) then s.pte d (addr / pgsize) else 0

inductive Event
  | exec (pid : ℕ) (areas : List Vma)
  | fill (pid la perm : ℕ) (contents : ℕ → ℕ)
  | load (pid addr : ℕ)
  | store (pid addr byte : ℕ)
  | fork (parent child : ℕ) (kmallocs : List Bool)
  | exit (pid : ℕ)

inductive Outcome
  | failed
  | done
  | byte (b : ℕ)
deriving DecidableEq

namespace Kernel

variable (x : Kernel)

def setMm (pid : ℕ) (mm : Option Mm) : Kernel :=
  { x with procs := Function.update x.procs pid mm }

/-- A new process image with its areas. -/
def exec (pid : ℕ) (areas : List Vma) : Option (Outcome × Kernel) :=
  match x.mem.setupPgdir Cow.bootPageTable with
  | (none, s) => some (.failed, { x with mem := s })
  | (some q, s) => some (.done, { x with mem := s }.setMm pid (some ⟨areas, none, q⟩))

/-- A page of a new image: `pgdir_alloc_page`, and the contents that `load_icode` writes. -/
def fill (mm : Mm) (la perm : ℕ) (contents : ℕ → ℕ) : Option (Outcome × Kernel) :=
  match x.mem.pgdirAllocPage mm.pgdir la perm with
  | none => none
  | some (none, s) => some (.failed, { x with mem := s })
  | some (some page, s) => some (.done, { x with mem := s.setPage page contents })

def load (pid : ℕ) (mm : Mm) (addr : ℕ) : Option (Outcome × Kernel) :=
  let read (s : State) := loadByte (s.word (pte2page (userPte s mm.pgdir addr))) (addr % pgsize)
  if has (userPte x.mem mm.pgdir addr) pteV then some (.byte (read x.mem), x)
  else
    match doPgfault mm causeLoadPageFault addr x.mem with
    | none => none
    | some (ret, mm', s) =>
      let y := { x with mem := s }.setMm pid (some mm')
      if ret = 0 ∧ has (userPte s mm.pgdir addr) pteV then some (.byte (read s), y)
      else some (.failed, y)

/-- The processor writes to a page. -/
def write (mm : Mm) (addr b : ℕ) : Kernel :=
  let page := pte2page (userPte x.mem mm.pgdir addr)
  { x with mem := x.mem.setPage page (storeByte (x.mem.word page) (addr % pgsize) b) }

/-- The processor lets a store from user mode pass. -/
def writable (s : State) (d addr : ℕ) : Bool :=
  has (userPte s d addr) pteV && has (userPte s d addr) pteW

def store (pid : ℕ) (mm : Mm) (addr b : ℕ) : Option (Outcome × Kernel) :=
  if writable x.mem mm.pgdir addr then some (.done, x.write mm addr b)
  else
    match doPgfault mm causeStorePageFault addr x.mem with
    | none => none
    | some (ret, mm', s) =>
      let y := { x with mem := s }.setMm pid (some mm')
      if ret = 0 ∧ writable s mm.pgdir addr then some (.done, y.write mm addr b)
      else some (.failed, y)

/-- `copy_mm` without `CLONE_VM`. -/
def fork (oldmm : Mm) (child : ℕ) : List Bool → Option (Outcome × Kernel)
  | true :: kmallocs =>
    match x.mem.setupPgdir Cow.bootPageTable with
    | (none, s) => some (.failed, { x with mem := s })
    | (some q, s) =>
      match dupMmap oldmm.pgdir oldmm.mmapList.reverse kmallocs ⟨[], none, q⟩ s with
      | none => none
      | some (ret, mm, s) =>
        if ret = 0 then some (.done, { x with mem := s }.setMm child (some mm))
        else
          match s.exitMmap mm with
          | none => none
          | some s => some (.failed, { x with mem := s.putPgdir mm })
  | _ => some (.failed, x)

def exit (pid : ℕ) (mm : Mm) : Option (Outcome × Kernel) :=
  match x.mem.exitMmap mm with
  | none => none
  | some s => some (.done, { x with mem := s.putPgdir mm }.setMm pid none)

/-- One event; `none` when an assertion fails or the process does not exist. -/
def step : Event → Option (Outcome × Kernel)
  | .exec pid areas => x.exec pid areas
  | .fill pid la perm contents => (x.procs pid).bind fun mm => x.fill mm la perm contents
  | .load pid addr => (x.procs pid).bind fun mm => x.load pid mm addr
  | .store pid addr b => (x.procs pid).bind fun mm => x.store pid mm addr b
  | .fork parent child kmallocs => (x.procs parent).bind fun mm => x.fork mm child kmallocs
  | .exit pid => (x.procs pid).bind fun mm => x.exit pid mm

end Kernel

end UCore.Fork
