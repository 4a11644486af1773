import UCore.PageTable.Exit
import UCore.UserMem.Model

/-! # Executing a program

The model of `do_execve` of `kern/process/proc.c`. It copies the name and the arguments into the
kernel, opens the file, gives the address space back and has `load_icode` build a new one. The name
is copied to `local_name` on the kernel stack, and `sysfile_open` is called with its address.
-/

namespace UCore.UserMem

open Library PageTable

def procNameLen : ℕ := 15
def execMaxArgNum : ℤ := 32
def execMaxArgLen : ℕ := 4096

def oRdonly : ℕ := 0

/-- The number of which these are the bytes, the lowest first. -/
def ofBytes (l : List ℕ) : ℕ := l.foldr (fun b n => b + 256 * n) 0

section Arguments

variable {σ : Type}

/-- The loops of `do_execve` that copy a string, checking every byte: at most `n` bytes, or `none`
when a byte may not be read. -/
def copyChecked : ℕ → ℕ → Program (Ctx σ) (Option (List ℕ))
  | 0, _ => return some []
  | n + 1, p => do
    if ← userMemCheck p 1 false then
      let b ← load p
      if b = 0 then return some []
      else
        let o ← copyChecked n (p + 1)
        return o.map fun l => b :: l
    else return none

/-- What `snprintf` writes for a name that is `NULL`. -/
def nullName (pid : ℤ) : List ℕ :=
  (("<null> " ++ toString pid).toList.map Char.toNat).take procNameLen

/-- The name that `do_execve` copies to `local_name`. -/
def copyName (pid : ℤ) (name : ℕ) : Program (Ctx σ) (Option (List ℕ)) := do
  if name = 0 then return some (nullName pid)
  else if ← userMemCheck name 1 false then copyChecked procNameLen name
  else return none

/-- `local_name`, filled with zeros after the name. -/
def Ctx.setLocalName (s : Ctx σ) (localName : ℕ) (l : List ℕ) : Ctx σ :=
  { s with
    kmem := fun x =>
      if localName ≤ x ∧ x ≤ localName + procNameLen then l.getD (x - localName) 0 else s.kmem x }

variable (F : Files σ)

/-- The loop over `argv`: `kargv`, or an error. -/
def Files.copyArgs : ℕ → ℕ → Program (Ctx σ) (List (List ℕ) ⊕ ℤ)
  | 0, _ => return .inl []
  | n + 1, argv => do
    if ← userMemCheck argv 8 false then
      let arg ← loadBytes 8 argv
      if ← Files.call (F.kmalloc (execMaxArgLen + 1)) then
        match ← copyChecked execMaxArgLen (ofBytes arg) with
        | none => return .inr (-eInval)
        | some bytes =>
          match ← Files.copyArgs n (argv + 8) with
          | .inl kargv => return .inl (bytes :: kargv)
          | .inr ret => return .inr ret
      else return .inr (-eNoMem)
    else return .inr (-eInval)

/-- `do_execve` before it opens the file: `kargv`, or an error. -/
def Files.execArgs (localName : ℕ) (pid : ℤ) (name : ℕ) (argc : ℤ) (argv : ℕ) :
    Program (Ctx σ) (List (List ℕ) ⊕ ℤ) := do
  if ¬ (1 ≤ argc ∧ argc ≤ execMaxArgNum) then return .inr (-eInval)
  else
    match ← copyName pid name with
    | none => return .inr (-eInval)
    | some l =>
      Program.modify fun s => s.setLocalName localName l
      F.copyArgs argc.toNat argv

end Arguments

/-- The running process, with the address that its page table register holds. -/
structure Task (σ τ : Type) where
  ctx : Ctx σ
  mmCount : ℕ
  pgdir : ℕ
  satp : ℕ
  tf : τ
  name : List ℕ
  pid : ℤ

/-- `load_icode` and `file_close`. Nothing is known of them here. -/
structure Loader (σ τ : Type) where
  loadIcode : ℤ → ℤ → List (List ℕ) → Program (Task σ τ) ℤ
  fileClose : ℤ → σ → ℤ × σ
  bootPgdirPa : ℕ

namespace Loader

variable {σ τ α : Type} (L : Loader σ τ) (F : Files σ)

def onCtx (m : Program (Ctx σ) α) : Program (Task σ τ) α :=
  m.part Task.ctx fun s c => { s with ctx := c }

/-- The part of `do_execve` that gives the address space back. -/
def releaseMm : Program (Task σ τ) Unit := fun s =>
  match s.ctx.mm with
  | none => .done () s
  | some mm =>
    let s := { s with satp := L.bootPgdirPa, mmCount := s.mmCount - 1 }
    if s.mmCount = 0 then
      match s.ctx.mem.exitMmap mm with
      | none => .lost
      | some mem => .done () { s with ctx := { s.ctx with mem := mem.putPgdir mm, mm := none } }
    else .done () { s with ctx := { s.ctx with mm := none } }

def setProcName (localName : ℕ) : Program (Task σ τ) Unit :=
  Program.modify fun s =>
    { s with name := (List.range procNameLen).map fun i => s.ctx.kmem (localName + i) }

def doExecve (localName name : ℕ) (argc : ℤ) (argv : ℕ) : Program (Task σ τ) ℤ := do
  match ← onCtx (F.execArgs localName (← Program.get).pid name argc argv) with
  | .inr ret => return ret
  | .inl kargv =>
    let fd ← onCtx (F.sysfileOpen localName oRdonly)
    if fd < 0 then return fd
    else
      L.releaseMm
      let ret ← L.loadIcode fd argc kargv
      let _ ← onCtx (Files.call (L.fileClose fd))
      if ret ≠ 0 then return ret
      else
        setProcName localName
        return 0

end Loader

end UCore.UserMem
