import Mathlib.Data.Finset.Card
import UCore.Defs
import UCore.List.Entry
import UCore.Process.State

/-! # The round robin scheduler

The model of `kern/schedule/sched.c` with the round robin class of `default_sched.c`, and of the
parts of `kern/process/proc.c` that change the state of a process. A failed assertion is an
error that names it.
-/

namespace UCore.Sched

open Library

structure Proc where
  state : ProcState
  waitState : UInt32
  flags : UInt32
  needResched : Bool
  timeSlice : Int32
  onRq : Bool
  runs : Int32
  parent : ℕ

/-- The list entries: the head of the run queue and the `run_link` of a process. -/
inductive Entry
  | runList
  | runLink (p : ℕ)
deriving DecidableEq

/-- The scheduler and the process table. `onRq` of a process is `proc->rq == rq`, there being one
run queue. `enqueued` and `picked` record the calls of `RR_enqueue` and the processes that
`schedule` dequeues; no function reads them. -/
structure State where
  proc : ℕ → Proc
  links : Links Entry
  procNum : UInt32
  maxTimeSlice : Int32
  current : ℕ
  procs : Finset ℕ
  enqueued : List ℕ
  picked : List ℕ

inductive Fault
  | wakeupZombie
  | enqueueLinked
  | enqueueRq
  | dequeueRq
  | dequeueUnlinked
  | forkWaiting
deriving DecidableEq

def maxTimeSlice : Int32 := 5

namespace State

variable (s : State)

def setProc (p : ℕ) (x : Proc) : State := { s with proc := Function.update s.proc p x }

def rrEnqueue (p : ℕ) : Except Fault State :=
  if listEmpty s.links (.runLink p) = false then .error .enqueueLinked
  else if (s.proc p).onRq then .error .enqueueRq
  else
    let slice := if (s.proc p).timeSlice ≤ 0 ∨ s.maxTimeSlice < (s.proc p).timeSlice
      then s.maxTimeSlice else (s.proc p).timeSlice
    .ok { s.setProc p { s.proc p with timeSlice := slice, onRq := true } with
      procNum := s.procNum + 1
      links := listAddBefore s.links .runList (.runLink p)
      enqueued := s.enqueued ++ [p] }

def rrDequeue (p : ℕ) : Except Fault State :=
  if (s.proc p).onRq = false then .error .dequeueRq
  else if listEmpty s.links (.runLink p) then .error .dequeueUnlinked
  else .ok { s.setProc p { s.proc p with onRq := false } with
    links := listDelInit s.links (.runLink p)
    procNum := s.procNum - 1
    picked := s.picked ++ [p] }

def rrPickNext : Option ℕ :=
  if listEmpty s.links .runList then none
  else match listNext s.links .runList with
    | .runLink p => some p
    | .runList => none

def rrProcTick (p : ℕ) : State :=
  let slice := if 0 < (s.proc p).timeSlice then (s.proc p).timeSlice - 1 else (s.proc p).timeSlice
  s.setProc p { s.proc p with
    timeSlice := slice, needResched := if slice = 0 then true else (s.proc p).needResched }

def schedClassEnqueue (p : ℕ) : Except Fault State :=
  if p ≠ idleproc then s.rrEnqueue p else .ok s

def schedClassProcTick (p : ℕ) : State :=
  if p ≠ idleproc then s.rrProcTick p else s.setProc p { s.proc p with needResched := true }

def wakeupProc (p : ℕ) : Except Fault State :=
  if (s.proc p).state = .zombie then .error .wakeupZombie
  else if (s.proc p).state ≠ .runnable then
    let s := s.setProc p { s.proc p with state := .runnable, waitState := 0 }
    if p ≠ s.current then s.schedClassEnqueue p else .ok s
  else .ok s

def procRun (p : ℕ) : State := if p ≠ s.current then { s with current := p } else s

/-- `schedule`, its test of the current process. -/
def enqueueCurrent : Except Fault State :=
  if (s.proc s.current).state = .runnable then s.schedClassEnqueue s.current else .ok s

/-- `schedule`, its choice of the next process. -/
def dequeueNext : Except Fault (ℕ × State) :=
  match s.rrPickNext with
  | some next => (s.rrDequeue next).map fun s => (next, s)
  | none => .ok (idleproc, s)

def schedule : Except Fault State := do
  let s ← (s.setProc s.current { s.proc s.current with needResched := false }).enqueueCurrent
  let (next, s) ← s.dequeueNext
  .ok ((s.setProc next { s.proc next with runs := (s.proc next).runs + 1 }).procRun next)

/-- `wakeup_proc` for every process of a list. -/
def wakeupProcs : State → List ℕ → Except Fault State
  | s, [] => .ok s
  | s, p :: ps => do wakeupProcs (← s.wakeupProc p) ps

/-- `run_timer_list`, when the timers of the processes `expired` reach zero. -/
def runTimerList (expired : List ℕ) : Except Fault State := do
  let s ← wakeupProcs s expired
  .ok (s.schedClassProcTick s.current)

/-- `alloc_proc`, as far as the fields above go. -/
def allocProc (p : ℕ) : State :=
  { s.setProc p ⟨.uninit, 0, 0, false, 0, false, 0, 0⟩ with
    links := listInit s.links (.runLink p), procs := insert p s.procs }

/-- `do_fork` when its allocations succeed; with `MAX_PROCESS` processes it does nothing. -/
def doFork (child : ℕ) : Except Fault State :=
  if maxProcess ≤ s.procs.card then .ok s
  else if (s.proc s.current).waitState ≠ 0 then .error .forkWaiting
  else
    let t := s.allocProc child
    (t.setProc child { t.proc child with parent := s.current }).wakeupProc child

/-- `do_wait` and `do_sleep` up to their call of `schedule`, and `wait_current_set`. -/
def sleep (waitState : UInt32) : State :=
  s.setProc s.current { s.proc s.current with state := .sleeping, waitState := waitState }

def doYield : State := s.setProc s.current { s.proc s.current with needResched := true }

def findProc (pid : ℕ) : Option ℕ := if 0 < pid ∧ pid ∈ s.procs then some pid else none

def doKill (pid : ℕ) : Except Fault (ℤ × State) :=
  match s.findProc pid with
  | none => .ok (-eInval, s)
  | some p =>
    if (s.proc p).flags &&& pfExiting = 0 then
      let s := s.setProc p { s.proc p with flags := (s.proc p).flags ||| pfExiting }
      if (s.proc p).waitState &&& wtInterrupted ≠ 0 then (s.wakeupProc p).map fun s => (0, s)
      else .ok (0, s)
    else .ok (-eKilled, s)

/-- The loop of `do_exit` that gives the children of the exiting process to `initproc`. -/
def reparent : State → List ℕ → Except Fault State
  | s, [] => .ok s
  | s, q :: qs => do
    let s := s.setProc q { s.proc q with parent := initproc }
    let s ← if (s.proc q).state = .zombie ∧ (s.proc initproc).waitState = wtChild
      then s.wakeupProc initproc else .ok s
    reparent s qs

/-- `do_exit` of the current process, with the chain of its children, up to `schedule`. -/
def doExit (children : List ℕ) : Except Fault State := do
  let s := s.setProc s.current { s.proc s.current with state := .zombie }
  let parent := (s.proc s.current).parent
  let s ← if (s.proc parent).waitState = wtChild then s.wakeupProc parent else .ok s
  s.reparent children

/-- The end of `do_wait`, which frees the process. -/
def reap (child : ℕ) : State := { s with procs := s.procs.erase child }

end State

inductive Op
  | fork (child : ℕ)
  | wakeup (p : ℕ)
  | schedule
  | tick (expired : List ℕ)
  | sleep (waitState : UInt32)
  | yield
  | kill (pid : ℕ)
  | exit (children : List ℕ)
  | wait (child : ℕ)

namespace State

variable (s : State)

/-- The current process is executing, and has not marked itself as sleeping or dead. -/
def Running : Prop := (s.proc s.current).state = .runnable

/-- When a step can be taken. Interrupts wake processes and call `schedule` at any time. -/
def Enabled : Op → Prop
  | .fork child => s.Running ∧ child ∉ s.procs
  | .wakeup p => p ∈ s.procs
  | .schedule => True
  | .tick expired => ∀ p ∈ expired, p ∈ s.procs
  | .sleep _ | .yield | .kill _ => s.Running
  | .exit children => s.Running ∧ s.current ≠ idleproc ∧ s.current ≠ initproc ∧
      ∀ q, q ∈ children ↔ q ∈ s.procs ∧ (s.proc q).parent = s.current
  | .wait child => s.Running ∧ child ∈ s.procs ∧ (s.proc child).state = .zombie ∧
      child ≠ idleproc ∧ child ≠ initproc

def exec : Op → Except Fault State
  | .fork child => s.doFork child
  | .wakeup p => s.wakeupProc p
  | .schedule => s.schedule
  | .tick expired => s.runTimerList expired
  | .sleep waitState => .ok (s.sleep waitState)
  | .yield => .ok s.doYield
  | .kill pid => (s.doKill pid).map Prod.snd
  | .exit children => s.doExit children
  | .wait child => .ok (s.reap child)

end State

/-- The state of `sched_init` with the process `idleproc`, which `proc_init` makes current. -/
def schedInit : State where
  proc _ := ⟨.runnable, 0, 0, true, 0, false, 0, 0⟩
  links := ⟨id, id⟩
  procNum := 0
  maxTimeSlice := maxTimeSlice
  current := idleproc
  procs := {idleproc}
  enqueued := []
  picked := []

/-- `proc_init`: `idleproc` creates `initproc`. -/
def procInit : Except Fault State := schedInit.doFork initproc

end UCore.Sched
