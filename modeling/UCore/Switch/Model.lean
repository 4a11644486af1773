import Mathlib.Data.Finset.Insert
import Mathlib.Data.Finset.Erase
import Mathlib.Logic.Function.Basic
import UCore.Defs

/-! # Page directories and switches

The model of what `do_fork`, `do_exit`, `do_execve` and `proc_run` do to `mm`, `pgdir` and `satp`. A
process may give up the processor wherever it can sleep in `down`: in a file operation, in
`put_files` of `do_exit`, in `load_icode` of `do_execve`, and on the `mm_sem` of its own `mm` in
`copy_mm`. So each of these functions is cut at such points, and a process is at one of them.
-/

namespace UCore.Switch

/-- Where a process is. -/
inductive Point
  /-- Anywhere else, in a file operation for instance. -/
  | other
  /-- In `copy_mm`, with the new `mm_struct`. -/
  | copying (mm : ℕ)
  /-- In `do_exit`, after its address space is given back. -/
  | exiting
  /-- In `do_execve`, after its address space is given back, with the new `mm_struct`. -/
  | loading (mm : Option ℕ)
  | zombie
deriving DecidableEq

structure Proc where
  mm : Option ℕ
  pgdir : ℕ
  at' : Point

/-- An `mm_struct`, with the page of its directory. -/
structure Mm where
  pgdir : ℕ
  mmCount : ℕ

/-- The processes, the `mm_struct`s, and the directories that `setup_pgdir` has made and `put_pgdir`
has not given back. -/
structure State where
  procs : Finset ℕ
  proc : ℕ → Proc
  mms : Finset ℕ
  mm : ℕ → Mm
  dirs : Finset ℕ
  current : ℕ
  satp : ℕ

namespace State

variable (bootPgdir : ℕ) (s : State)

def cur : Proc := s.proc s.current

def setProc (p : ℕ) (x : Proc) : State :=
  { s with procs := insert p s.procs, proc := Function.update s.proc p x }

def setPoint (x : Point) : State := s.setProc s.current { s.cur with at' := x }

/-- `mm_create` and `setup_pgdir`. -/
def createMm (m d : ℕ) : State :=
  { s with
    mms := insert m s.mms
    mm := Function.update s.mm m ⟨d, 0⟩
    dirs := insert d s.dirs }

def putPgdir (m : ℕ) : State := { s with dirs := s.dirs.erase (s.mm m).pgdir }

def mmDestroy (m : ℕ) : State := { s with mms := s.mms.erase m }

def setMmCount (m n : ℕ) : State :=
  { s with mm := Function.update s.mm m { s.mm m with mmCount := n } }

def mmCountInc (m : ℕ) : State := s.setMmCount m ((s.mm m).mmCount + 1)

def mmCountDec (m : ℕ) : State := s.setMmCount m ((s.mm m).mmCount - 1)

def lsatp (pgdir : ℕ) : State := { s with satp := pgdir }

/-- The part of `do_exit` and `do_execve` that gives the address space of `current` back. -/
def releaseMm : State :=
  match s.cur.mm with
  | none => s
  | some m =>
    let s := (s.lsatp bootPgdir).mmCountDec m
    let s := if (s.mm m).mmCount = 0 then (s.putPgdir m).mmDestroy m else s
    s.setProc s.current { s.cur with mm := none }

/-- The cleanup of `copy_mm` and `load_icode` that gives the new address space back. -/
def dropMm (m : ℕ) : State := (s.putPgdir m).mmDestroy m

/-- `copy_mm` for a process that shares `mm` or has none. -/
def shareMm (child : ℕ) : State :=
  match s.cur.mm with
  | none => s.setProc child ⟨none, bootPgdir, .other⟩
  | some m => (s.mmCountInc m).setProc child ⟨some m, (s.mm m).pgdir, .other⟩

/-- The end of `load_icode`. -/
def enterMm (m : ℕ) : State :=
  let s := s.mmCountInc m
  (s.setProc s.current ⟨some m, (s.mm m).pgdir, .other⟩).lsatp (s.mm m).pgdir

def procRun (next : ℕ) : State :=
  if next = s.current then s
  else { s with current := next, satp := (s.proc next).pgdir }

end State

/-- What happens between two points. -/
inductive Event
  /-- A fork of a kernel thread, or with `CLONE_VM`. -/
  | fork (child : ℕ) (cloneVm : Bool)
  | copyMm (mm dir : ℕ)
  | copied (child : ℕ)
  | copyFailed
  | exit
  | exited
  | exec
  | setupPgdir (mm dir : ℕ)
  | loaded
  | loadFailed
  /-- `current` gives up the processor. -/
  | run (next : ℕ)
  | reap (child : ℕ)
deriving DecidableEq

/-- The process that gets the processor. -/
def Event.next : Event → Option ℕ
  | .run next => some next
  | _ => none

variable (bootPgdir : ℕ)

def State.step (s : State) : Event → Option State
  | .fork child cloneVm =>
    if s.cur.at' = .other ∧ child ∉ s.procs ∧ (s.cur.mm = none ∨ cloneVm) then
      some (s.shareMm bootPgdir child)
    else none
  | .copyMm m d =>
    if s.cur.at' = .other ∧ s.cur.mm ≠ none ∧ m ∉ s.mms ∧ d ∉ s.dirs then
      some ((s.createMm m d).setPoint (.copying m))
    else none
  | .copied child =>
    match s.cur.at' with
    | .copying m =>
      if child ∉ s.procs then
        let s := (s.setPoint .other).mmCountInc m
        some (s.setProc child ⟨some m, (s.mm m).pgdir, .other⟩)
      else none
    | _ => none
  | .copyFailed =>
    match s.cur.at' with
    | .copying m => some ((s.dropMm m).setPoint .other)
    | _ => none
  | .exit =>
    if s.cur.at' = .other ∧ s.current ≠ idleproc ∧ s.current ≠ initproc then
      some ((s.releaseMm bootPgdir).setPoint .exiting)
    else none
  | .exited => if s.cur.at' = .exiting then some (s.setPoint .zombie) else none
  | .exec => if s.cur.at' = .other then
    some ((s.releaseMm bootPgdir).setPoint (.loading none)) else none
  | .setupPgdir m d =>
    if s.cur.at' = .loading none ∧ m ∉ s.mms ∧ d ∉ s.dirs then
      some ((s.createMm m d).setPoint (.loading (some m)))
    else none
  | .loaded =>
    match s.cur.at' with
    | .loading (some m) => some (s.enterMm m)
    | _ => none
  | .loadFailed =>
    match s.cur.at' with
    | .loading none => some (s.setPoint .other)
    | .loading (some m) => some ((s.dropMm m).setPoint .other)
    | _ => none
  | .run next =>
    if next ∈ s.procs ∧ (s.proc next).at' ≠ .zombie then some (s.procRun next) else none
  | .reap child =>
    if s.cur.at' = .other ∧ child ∈ s.procs ∧ child ≠ s.current ∧ (s.proc child).at' = .zombie then
      some { s with procs := s.procs.erase child }
    else none

/-- The boot state, with `idleproc` only. -/
def State.boot : State where
  procs := {idleproc}
  proc _ := ⟨none, bootPgdir, .other⟩
  mms := ∅
  mm _ := ⟨bootPgdir, 0⟩
  dirs := ∅
  current := idleproc
  satp := bootPgdir

end UCore.Switch
