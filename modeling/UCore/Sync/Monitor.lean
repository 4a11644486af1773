import UCore.Defs
import UCore.Sync.Semaphore

/-! # Monitors

The model of `kern/sync/monitor.c` over abstract semaphores, one statement a step, so that
every interleaving of the statements of different processes is a run. A routine is a `down` of
the mutex, a body that waits on and signals condition variables, and the exit that hands the
monitor on.
-/

namespace UCore.Monitor

open Sync

/-- The semaphores of a monitor: `mutex`, `next` and one for each condition variable. -/
inductive SemId
  | mutex
  | next
  | cv (c : ℕ)
deriving DecidableEq

/-- The next statement of a process, by the routine it is in. -/
inductive Pc
  | outside
  | enterBlocked
  | body
  | waitTest (c : ℕ)
  | waitUpNext (c : ℕ)
  | waitUpMutex (c : ℕ)
  | waitDown (c : ℕ)
  | waitBlocked (c : ℕ)
  | waitDec (c : ℕ)
  | signalInc (c : ℕ)
  | signalUp (c : ℕ)
  | signalDown (c : ℕ)
  | signalBlocked (c : ℕ)
  | signalDec (c : ℕ)
  | leaveUpNext
  | leaveUpMutex
deriving DecidableEq

namespace Pc

/-- Executing inside the monitor. -/
def inside : Pc → Bool
  | body | waitTest _ | waitUpNext _ | waitUpMutex _ | waitDec _ | signalInc _ | signalUp _
  | signalDec _ | leaveUpNext | leaveUpMutex => true
  | _ => false

/-- The semaphore in whose `down` the process sleeps. -/
def waitsOn : Pc → Option SemId
  | enterBlocked => some .mutex
  | waitBlocked c => some (.cv c)
  | signalBlocked _ => some .next
  | _ => none

/-- Between `next_count++` and `next_count--` of `cond_signal`. -/
def inSignal : Pc → Bool
  | signalUp _ | signalDown _ | signalBlocked _ | signalDec _ => true
  | _ => false

/-- Between `count++` and `count--` of `cond_wait` on `c`. -/
def inWait (c : ℕ) : Pc → Bool
  | waitTest d | waitUpNext d | waitUpMutex d | waitDown d | waitBlocked d | waitDec d => c = d
  | _ => false

end Pc

/-- A monitor and the processes that use it. `awake` marks those that an `up` has released from
the semaphore they sleep on and that have not run since. -/
structure State where
  sem : SemId → Semaphore
  nextCount : Int32
  count : ℕ → Int32
  procs : Finset ℕ
  pc : ℕ → Pc
  awake : ℕ → Bool

namespace State

def goto (s : State) (p : ℕ) (x : Pc) : State := { s with pc := Function.update s.pc p x }

def up (s : State) (i : SemId) : State :=
  { s with
    sem := Function.update s.sem i (s.sem i).up.2
    awake := match (s.sem i).up.1 with
      | none => s.awake
      | some q => Function.update s.awake q true }

/-- `down` by process `p`, which goes on at `done` or sleeps at `blocked`. -/
def down (s : State) (i : SemId) (p : ℕ) (done blocked : Pc) : State :=
  { s with sem := Function.update s.sem i ((s.sem i).down p).2 }.goto p
    (if ((s.sem i).down p).1 then done else blocked)

/-- The return of a released process from `down`. -/
def wake (s : State) (p : ℕ) (done : Pc) : Option State :=
  if s.awake p then some ({ s with awake := Function.update s.awake p false }.goto p done)
  else none

def setCount (s : State) (c : ℕ) (n : Int32) : State :=
  { s with count := Function.update s.count c n }

/-- The next statement of a process that is between two calls of its routine's body. -/
def advance (s : State) (p : ℕ) : Option State :=
  match s.pc p with
  | .outside | .body => none
  | .enterBlocked => s.wake p .body
  | .waitTest c => some (s.goto p (if 0 < s.nextCount then .waitUpNext c else .waitUpMutex c))
  | .waitUpNext c => some ((s.up .next).goto p (.waitDown c))
  | .waitUpMutex c => some ((s.up .mutex).goto p (.waitDown c))
  | .waitDown c => some (s.down (.cv c) p (.waitDec c) (.waitBlocked c))
  | .waitBlocked c => s.wake p (.waitDec c)
  | .waitDec c => some ((s.setCount c (s.count c - 1)).goto p .body)
  | .signalInc c => some ({ s with nextCount := s.nextCount + 1 }.goto p (.signalUp c))
  | .signalUp c => some ((s.up (.cv c)).goto p (.signalDown c))
  | .signalDown c => some (s.down .next p (.signalDec c) (.signalBlocked c))
  | .signalBlocked c => s.wake p (.signalDec c)
  | .signalDec _ => some ({ s with nextCount := s.nextCount - 1 }.goto p .body)
  | .leaveUpNext => some ((s.up .next).goto p .outside)
  | .leaveUpMutex => some ((s.up .mutex).goto p .outside)

end State

inductive Op
  | enter (p : ℕ)
  | condWait (p c : ℕ)
  | condSignal (p c : ℕ)
  | leave (p : ℕ)
  | advance (p : ℕ)
  | fork (p child : ℕ)
  | exit (p : ℕ)

/-- One step: a process outside enters or exits, a process in the body calls `cond_wait` or
`cond_signal` or leaves, any other executes its next statement. -/
def State.step (s : State) : Op → Option State
  | .enter p =>
    if p ∈ s.procs ∧ s.pc p = .outside then some (s.down .mutex p .body .enterBlocked) else none
  | .condWait p c =>
    if p ∈ s.procs ∧ s.pc p = .body then
      some ((s.setCount c (s.count c + 1)).goto p (.waitTest c))
    else none
  | .condSignal p c =>
    if p ∈ s.procs ∧ s.pc p = .body then
      some (if 0 < s.count c then s.goto p (.signalInc c) else s)
    else none
  | .leave p =>
    if p ∈ s.procs ∧ s.pc p = .body then
      some (s.goto p (if 0 < s.nextCount then .leaveUpNext else .leaveUpMutex))
    else none
  | .advance p => if p ∈ s.procs then s.advance p else none
  | .fork p q =>
    if p ∈ s.procs ∧ q ∉ s.procs then
      some (if s.procs.card < maxProcess then { s with procs := insert q s.procs } else s)
    else none
  | .exit p =>
    if p ∈ s.procs ∧ s.pc p = .outside then some { s with procs := s.procs.erase p } else none

/-- `monitor_init`, with one process. -/
def monitorInit : State where
  sem
    | .mutex => ⟨1, []⟩
    | .next | .cv _ => ⟨0, []⟩
  nextCount := 0
  count _ := 0
  procs := {0}
  pc _ := .outside
  awake _ := false

end UCore.Monitor
