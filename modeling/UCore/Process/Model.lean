import Mathlib.Algebra.Order.Ring.Nat
import UCore.Defs
import UCore.Library.Family
import UCore.Library.Loop
import UCore.List.Entry
import UCore.Process.State

/-! # The process table

The model of `kern/process/proc.c` for the creation, exit and reaping of processes. A
`proc_struct` is named by its address. The kernel is not preemptive, so each function runs as one
step up to its call of `schedule`. A failed assertion, a panic and a null dereference are `none`.
-/

namespace UCore.Process

open Library

def maxPid : ℤ := 8192

def eNoFreeProc : ℤ := 5
structure Proc where
  state : ProcState
  pid : ℤ
  parent : Option ℕ
  cptr : Option ℕ
  optr : Option ℕ
  yptr : Option ℕ
  waitState : UInt32
  flags : UInt32
  exitCode : ℤ

/-- `proc_list` has the head `none`, the hash lists have the heads `inl i`. The process `a` called
`schedule` in `do_wait` of the pid `inWait a`. -/
structure State where
  proc : ℕ → Proc
  procList : Links (Option ℕ)
  hashList : Links (ℕ ⊕ ℕ)
  nrProcess : ℕ
  lastPid : ℤ
  nextSafe : ℤ
  inWait : ℕ → Option ℤ

def pidHashfn (x : ℤ) : ℕ := (x % 2 ^ 32).toNat * 0x9e370001 % 2 ^ 32 / 2 ^ 22

/-- The entries that `list_next` reaches from `le` before `head`, at most `n`. -/
def walk {α : Type} [DecidableEq α] (L : Links α) (head : α) : ℕ → α → List α
  | 0, _ => []
  | n + 1, le => if L.next le = head then [] else L.next le :: walk L head n (L.next le)

/-- One pass of `get_pid` over the pids of the list: `inl` for a restart. -/
def scanPids : List ℤ → ℤ × ℤ → ℤ × ℤ ⊕ ℤ × ℤ
  | [], x => .inr x
  | pid :: rest, (lastPid, nextSafe) =>
    if pid = lastPid then
      if lastPid + 1 ≥ nextSafe then
        .inl (if lastPid + 1 ≥ maxPid then 1 else lastPid + 1, maxPid)
      else scanPids rest (lastPid + 1, nextSafe)
    else if pid > lastPid ∧ nextSafe > pid then scanPids rest (lastPid, pid)
    else scanPids rest (lastPid, nextSafe)

/-- `get_pid`, as the new values of `last_pid` and `next_safe`; `none` for more restarts than two
rounds through the pids. -/
def getPid (pids : List ℤ) (lastPid nextSafe : ℤ) : Option (ℤ × ℤ) :=
  let inside (x : ℤ) := iterate (scanPids pids) (2 * maxPid.toNat + 1) (x, maxPid)
  if lastPid + 1 ≥ maxPid then inside 1
  else if lastPid + 1 ≥ nextSafe then inside (lastPid + 1)
  else some (lastPid + 1, nextSafe)

namespace State

variable (s : State)

def setProc (a : ℕ) (f : Proc → Proc) : State :=
  { s with proc := Function.update s.proc a (f (s.proc a)) }

/-- A store through a pointer that may be null. -/
def setAt (o : Option ℕ) (f : Proc → Proc) : State :=
  match o with
  | none => s
  | some a => s.setProc a f

def setLinks (a : ℕ) : Option State :=
  let s := { s with procList := listAdd s.procList none (some a) }
  match (s.proc a).parent with
  | none => none
  | some parent =>
    let optr := (s.proc parent).cptr
    let s := s.setProc a fun x => { x with yptr := none, optr := optr }
    let s := s.setAt optr fun x => { x with yptr := some a }
    let s := s.setProc parent fun x => { x with cptr := some a }
    some { s with nrProcess := s.nrProcess + 1 }

def removeLinks (a : ℕ) : Option State :=
  let s := { s with procList := listDel s.procList (some a) }
  let optr := (s.proc a).optr
  let yptr := (s.proc a).yptr
  let s := s.setAt optr fun x => { x with yptr := yptr }
  match yptr with
  | some y =>
    let s := s.setProc y fun x => { x with optr := optr }
    some { s with nrProcess := s.nrProcess - 1 }
  | none =>
    match (s.proc a).parent with
    | none => none
    | some parent =>
      let s := s.setProc parent fun x => { x with cptr := optr }
      some { s with nrProcess := s.nrProcess - 1 }

def hashProc (a : ℕ) : State :=
  { s with hashList := listAdd s.hashList (.inl (pidHashfn (s.proc a).pid)) (.inr a) }

def unhashProc (a : ℕ) : State := { s with hashList := listDel s.hashList (.inr a) }

def findProc (pid : ℤ) : Option ℕ :=
  if 0 < pid ∧ pid < maxPid then
    ((walk s.hashList (.inl (pidHashfn pid)) s.nrProcess (.inl (pidHashfn pid))).filterMap
      Sum.getRight?).find? fun a => (s.proc a).pid = pid
  else none

/-- `wakeup_proc`, without the insertion into the run queue. -/
def wakeupProc (a : ℕ) : Option State :=
  if (s.proc a).state = .zombie then none
  else if (s.proc a).state ≠ .runnable then
    some (s.setProc a fun x => { x with state := .runnable, waitState := 0 })
  else some s

/-- The pids on `proc_list`. -/
def pids : List ℤ :=
  ((walk s.procList none s.nrProcess none).filterMap id).map fun a => (s.proc a).pid

/-- `alloc_proc` in the memory at `a`. -/
def allocProc (a : ℕ) : State :=
  s.setProc a fun _ => ⟨.uninit, -1, none, none, none, none, 0, 0, 0⟩

/-- The part of `do_fork` in which the new process enters the table. -/
def enterProc (a : ℕ) : Option (ℤ × State) :=
  match getPid s.pids s.lastPid s.nextSafe with
  | none => none
  | some (pid, nextSafe) =>
    let s := { s with lastPid := pid, nextSafe := nextSafe }
    let s := s.setProc a fun x => { x with pid := pid }
    match (s.hashProc a).setLinks a with
    | none => none
    | some s => (s.wakeupProc a).map fun s => (pid, s)

/-- `do_fork` of the process `current`: `mem` is the memory for the `proc_struct`, and `resources`
says whether the kernel stack, the memory and the files could be made. -/
def doFork (current : ℕ) (mem : Option ℕ) (resources : Bool) : Option (ℤ × State) :=
  if s.nrProcess ≥ maxProcess then some (-eNoFreeProc, s)
  else
    match mem with
    | none => some (-eNoMem, s)
    | some a =>
      let s' := (s.allocProc a).setProc a fun x => { x with parent := some current }
      if (s.proc current).waitState ≠ 0 then none
      else if !resources then some (-eNoMem, s)
      else s'.enterProc a

/-- One round of the loop of `do_exit` that hands the children to `initproc`. -/
def reparentOne (current : ℕ) (s : State) : State ⊕ Option State :=
  match (s.proc current).cptr with
  | none => .inr (some s)
  | some a =>
    let s := s.setProc current fun x => { x with cptr := (s.proc a).optr }
    let optr := (s.proc initproc).cptr
    let s := s.setProc a fun x => { x with yptr := none, optr := optr }
    let s := s.setAt optr fun x => { x with yptr := some a }
    let s := s.setProc a fun x => { x with parent := some initproc }
    let s := s.setProc initproc fun x => { x with cptr := some a }
    if (s.proc a).state = .zombie ∧ (s.proc initproc).waitState = wtChild then
      match s.wakeupProc initproc with
      | none => .inr none
      | some s => .inl s
    else .inl s

/-- `do_exit` up to its call of `schedule`, as far as it works on the table. -/
def doExit (current : ℕ) (errorCode : ℤ) : Option State :=
  if current = idleproc ∨ current = initproc then none
  else
    let s := s.setProc current fun x => { x with state := .zombie, exitCode := errorCode }
    match (s.proc current).parent with
    | none => none
    | some parent =>
      let woken :=
        if (s.proc parent).waitState = wtChild then s.wakeupProc parent else some s
      match woken with
      | none => none
      | some s => (iterate (reparentOne current) (s.nrProcess + 1) s).join

end State

inductive WaitResult
  | bad
  | slept
  | reaped (proc : ℕ)
deriving DecidableEq

namespace State

variable (s : State)

/-- The children that the loop of `do_wait` visits from `proc` on, at most `n`. -/
def siblings : ℕ → Option ℕ → List ℕ
  | 0, _ => []
  | _ + 1, none => []
  | n + 1, some a => a :: siblings n (s.proc a).optr

/-- The children that `do_wait` looks at. -/
def candidates (current : ℕ) (pid : ℤ) : List ℕ :=
  if pid ≠ 0 then
    match s.findProc pid with
    | some a => if (s.proc a).parent = some current then [a] else []
    | none => []
  else s.siblings s.nrProcess (s.proc current).cptr

/-- The part of `do_wait` after `found`. -/
def reap (a : ℕ) : Option State :=
  if a = idleproc ∨ a = initproc then none else (s.unhashProc a).removeLinks a

/-- `do_wait` from `repeat` on. -/
def doWait (current : ℕ) (pid : ℤ) : Option (WaitResult × State) :=
  match (s.candidates current pid).find? fun a => (s.proc a).state = .zombie with
  | some a => (s.reap a).map fun s => (.reaped a, s)
  | none =>
    if s.candidates current pid ≠ [] then
      let s := s.setProc current fun x => { x with state := .sleeping, waitState := wtChild }
      some (.slept, { s with inWait := Function.update s.inWait current (some pid) })
    else some (.bad, s)

/-- `do_wait` after its call of `schedule`: `none` as result when a killed process goes on to
`do_exit`. -/
def wakeInWait (current : ℕ) (pid : ℤ) : Option (Option WaitResult × State) :=
  let s := { s with inWait := Function.update s.inWait current none }
  if (s.proc current).flags &&& pfExiting ≠ 0 then some (none, s)
  else (s.doWait current pid).map fun r => (some r.1, r.2)

def doKill (pid : ℤ) : Option (ℤ × State) :=
  match s.findProc pid with
  | none => some (-eInval, s)
  | some a =>
    if (s.proc a).flags &&& pfExiting ≠ 0 then some (-eKilled, s)
    else
      let s := s.setProc a fun x => { x with flags := x.flags ||| pfExiting }
      if (s.proc a).waitState &&& wtInterrupted ≠ 0 then (s.wakeupProc a).map fun s => (0, s)
      else some (0, s)

end State

end UCore.Process
