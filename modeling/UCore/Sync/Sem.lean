import Mathlib.Logic.Function.Basic
import UCore.List.Entry
import UCore.Process.State

/-! # Wait queues and semaphores

The model of `kern/sync/wait.c` and `kern/sync/sem.c`, with the process table entries they
read and write. A `wait_t` lives on the kernel stack of the process that waits, so it is named
by that process. A failed assertion is `none`. The run queue is left out: any runnable process
may be the next to run.
-/

namespace UCore.Sync

open Library

structure Proc where
  state : ProcState
  waitState : UInt32
  flags : UInt32

structure Wait where
  proc : ℕ
  wakeupFlags : UInt32
  waitQueue : ℕ

/-- The list entries: the head of a semaphore's wait queue and the link of a `wait_t`. -/
inductive Entry
  | waitHead (sem : ℕ)
  | waitLink (wait : ℕ)
deriving DecidableEq

/-- Semaphores and processes; `inDown p` is the semaphore whose `__down` process `p` has entered
and called `schedule` in. -/
structure State where
  proc : ℕ → Proc
  value : ℕ → Int32
  wait : ℕ → Wait
  links : Links Entry
  inDown : ℕ → Option ℕ

def State.setProc (s : State) (p : ℕ) (x : Proc) : State :=
  { s with proc := Function.update s.proc p x }

def State.setWait (s : State) (w : ℕ) (x : Wait) : State :=
  { s with wait := Function.update s.wait w x }

def State.setValue (s : State) (sem : ℕ) (v : Int32) : State :=
  { s with value := Function.update s.value sem v }

def State.setInDown (s : State) (p : ℕ) (x : Option ℕ) : State :=
  { s with inDown := Function.update s.inDown p x }

/-- `wakeup_proc`, without the insertion into the run queue. -/
def wakeupProc (s : State) (p : ℕ) : Option State :=
  if (s.proc p).state = .zombie then none
  else if (s.proc p).state ≠ .runnable then
    some (s.setProc p { s.proc p with state := .runnable, waitState := 0 })
  else some s

def waitInit (s : State) (w proc : ℕ) : State :=
  { s.setWait w { s.wait w with proc := proc, wakeupFlags := wtInterrupted } with
    links := listInit s.links (.waitLink w) }

def waitQueueAdd (s : State) (q w : ℕ) : Option State :=
  if listEmpty s.links (.waitLink w) then
    some { s.setWait w { s.wait w with waitQueue := q } with
      links := listAddBefore s.links (.waitHead q) (.waitLink w) }
  else none

def waitQueueDel (s : State) (q w : ℕ) : Option State :=
  if listEmpty s.links (.waitLink w) = false ∧ (s.wait w).waitQueue = q then
    some { s with links := listDelInit s.links (.waitLink w) }
  else none

def waitQueueFirst (s : State) (q : ℕ) : Option ℕ :=
  match listNext s.links (.waitHead q) with
  | .waitLink w => some w
  | .waitHead _ => none

def waitQueueEmpty (s : State) (q : ℕ) : Bool := listEmpty s.links (.waitHead q)

def waitInQueue (s : State) (w : ℕ) : Bool := !listEmpty s.links (.waitLink w)

def wakeupWait (s : State) (q w : ℕ) (wakeupFlags : UInt32) (del : Bool) : Option State := do
  let s ← if del then waitQueueDel s q w else some s
  wakeupProc (s.setWait w { s.wait w with wakeupFlags := wakeupFlags }) (s.wait w).proc

def waitCurrentSet (s : State) (current q w : ℕ) (waitState : UInt32) : Option State :=
  let s := waitInit s w current
  let s := s.setProc current { s.proc current with state := .sleeping, waitState := waitState }
  waitQueueAdd s q w

def waitCurrentDel (s : State) (q w : ℕ) : Option State :=
  if waitInQueue s w then waitQueueDel s q w else some s

/-- `__up`. -/
def rawUp (s : State) (sem : ℕ) (waitState : UInt32) : Option State :=
  match waitQueueFirst s sem with
  | none => some (s.setValue sem (s.value sem + 1))
  | some w =>
    if (s.proc (s.wait w).proc).waitState = waitState then wakeupWait s sem w waitState true
    else none

/-- `__down` up to its return or its call of `schedule`. -/
def rawDown (s : State) (current sem : ℕ) (waitState : UInt32) : Option State :=
  if 0 < s.value sem then some (s.setValue sem (s.value sem - 1))
  else (waitCurrentSet s current sem current waitState).map (·.setInDown current (some sem))

/-- `__down` after `schedule` has returned, with its result. -/
def rawDownReturn (s : State) (current sem : ℕ) (waitState : UInt32) : Option (UInt32 × State) := do
  let s ← waitCurrentDel s sem current
  let s := s.setInDown current none
  if (s.wait current).wakeupFlags ≠ waitState then some ((s.wait current).wakeupFlags, s)
  else some (0, s)

def up (s : State) (sem : ℕ) : Option State := rawUp s sem wtKsem

def down (s : State) (current sem : ℕ) : Option State := rawDown s current sem wtKsem

/-- The end of `down`, with its assertion on the flags. -/
def downReturn (s : State) (current sem : ℕ) : Option State := do
  let (flags, s) ← rawDownReturn s current sem wtKsem
  if flags = 0 then some s else none

def tryDown (s : State) (sem : ℕ) : Bool × State :=
  if 0 < s.value sem then (true, s.setValue sem (s.value sem - 1)) else (false, s)

/-- Processes are hashed by `do_fork` and unhashed by `do_wait`. -/
def findProc (s : State) (pid : ℕ) : Option ℕ :=
  if 0 < pid ∧ (s.proc pid).state ≠ .uninit then some pid else none

def doKill (s : State) (pid : ℕ) : Option (ℤ × State) :=
  match findProc s pid with
  | none => some (-eInval, s)
  | some p =>
    if (s.proc p).flags &&& pfExiting = 0 then
      let s := s.setProc p { s.proc p with flags := (s.proc p).flags ||| pfExiting }
      if (s.proc p).waitState &&& wtInterrupted ≠ 0 then (wakeupProc s p).map fun s => (0, s)
      else some (0, s)
    else some (-eKilled, s)

/-- The wakeups of `do_exit`: the parent, and `initproc` for every zombie child. -/
def wakeupParents (s : State) : List ℕ → Option State
  | [] => some s
  | q :: qs => do
    let s ← if (s.proc q).waitState = wtChild then wakeupProc s q else some s
    wakeupParents s qs

def doExit (s : State) (current : ℕ) (parents : List ℕ) : Option State :=
  wakeupParents (s.setProc current { s.proc current with state := .zombie }) parents

/-- The steps of the kernel, each from one scheduling point to the next. -/
inductive Op
  | up (current sem : ℕ)
  | down (current sem : ℕ)
  | downReturn (current : ℕ)
  | tryDown (current sem : ℕ)
  | kill (current pid : ℕ)
  | sleep (current : ℕ) (waitState : UInt32)
  | interrupt (proc : ℕ)
  | exit (current : ℕ) (parents : List ℕ)
  | fork (current child : ℕ)
  | reap (current child : ℕ)

def State.running (s : State) (p : ℕ) : Prop := (s.proc p).state = .runnable ∧ s.inDown p = none

/-- When a step can be taken: by a runnable process that is not inside `__down`, or by the
timer and the keyboard on behalf of a process in `do_sleep` or `dev_stdin_read`. -/
def State.Enabled (s : State) : Op → Prop
  | .up p _ | .down p _ | .tryDown p _ | .kill p _ | .exit p _ => s.running p
  | .downReturn p => (s.proc p).state = .runnable ∧ s.inDown p ≠ none
  | .sleep p w => s.running p ∧ (w = wtChild ∨ w = wtTimer ∨ w = wtKbd)
  | .interrupt q => (s.proc q).waitState = wtTimer ∨ (s.proc q).waitState = wtKbd
  | .fork p q => s.running p ∧ (s.proc q).state = .uninit
  | .reap p q => s.running p ∧ (s.proc q).state = .zombie

instance (s : State) (p : ℕ) : Decidable (s.running p) := inferInstanceAs (Decidable (_ ∧ _))

instance (s : State) : ∀ op, Decidable (s.Enabled op)
  | .up p _ | .down p _ | .tryDown p _ | .kill p _ | .exit p _ =>
    inferInstanceAs (Decidable (s.running p))
  | .downReturn _ | .sleep _ _ | .fork _ _ | .reap _ _ => inferInstanceAs (Decidable (_ ∧ _))
  | .interrupt _ => inferInstanceAs (Decidable (_ ∨ _))

def State.exec (s : State) : Op → Option State
  | .up _ sem => Sync.up s sem
  | .down p sem => Sync.down s p sem
  | .downReturn p => (s.inDown p).bind fun sem => Sync.downReturn s p sem
  | .tryDown _ sem => some (Sync.tryDown s sem).2
  | .kill _ pid => (doKill s pid).map Prod.snd
  | .sleep p w => some (s.setProc p { s.proc p with state := .sleeping, waitState := w })
  | .interrupt q => wakeupProc s q
  | .exit p parents => doExit s p parents
  | .fork _ q => wakeupProc (s.setProc q ⟨.uninit, 0, 0⟩) q
  | .reap _ q => some (s.setProc q ⟨.uninit, 0, 0⟩)

def State.step (s : State) (op : Op) : Option State := if s.Enabled op then s.exec op else none

/-- All semaphores initialised, one runnable process and no other. -/
def boot (v : ℕ → Int32) : State where
  proc p := ⟨if p = 0 then .runnable else .uninit, 0, 0⟩
  value := v
  wait _ := ⟨0, 0, 0⟩
  links := ⟨id, id⟩
  inDown _ := none

end UCore.Sync
