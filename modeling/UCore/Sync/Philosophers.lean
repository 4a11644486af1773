import UCore.Sync.Monitor

/-! # Dining philosophers

The model of `kern/sync/check_sync.c` for any number of philosophers, with semaphores and with a
monitor. A philosopher thinks, takes the forks, eats and puts them back, for any number of rounds.
One step executes one statement of one philosopher.
-/

namespace UCore.Philosophers

open Sync

inductive PhiState
  | thinking
  | hungry
  | eating
deriving DecidableEq

def left (n i : ℕ) : ℕ := (i + n - 1) % n

def right (n i : ℕ) : ℕ := (i + 1) % n

/-- The condition of `phi_test_sema` and `phi_test_condvar`. -/
def MayEat (n : ℕ) (state : ℕ → PhiState) (i : ℕ) : Prop :=
  state i = .hungry ∧ state (left n i) ≠ .eating ∧ state (right n i) ≠ .eating

instance (n : ℕ) (state : ℕ → PhiState) (i : ℕ) : Decidable (MayEat n state i) :=
  inferInstanceAs (Decidable (_ ∧ _))

/-- `phi_take_forks` and `phi_put_forks`. -/
inductive Routine
  | take
  | put
deriving DecidableEq

/-- The state that a routine gives its philosopher first. -/
def Routine.state : Routine → PhiState
  | take => .hungry
  | put => .thinking

/-- The philosophers that a routine of philosopher `i` tests. -/
def Routine.tests (n i : ℕ) : Routine → List ℕ
  | take => [i]
  | put => [left n i, right n i]

section Sema

/-- The next statement of a philosopher: the call of a routine, the assignment to its state, the
tests that are left, and the signal for the philosopher whose test succeeded. A routine whose
tests are done leaves the critical section. -/
inductive SemaPc
  | idle (r : Routine)
  | enterBlocked (r : Routine)
  | enter (r : Routine)
  | test (r : Routine) (todo : List ℕ)
  | signal (r : Routine) (j : ℕ) (todo : List ℕ)
  | takeDown
  | takeBlocked
deriving DecidableEq

/-- A process that is in `down` and no longer in the queue of the semaphore has been released. -/
structure Sema where
  mutex : Semaphore
  s : ℕ → Semaphore
  state : ℕ → PhiState
  pc : ℕ → SemaPc

namespace Sema

variable (x : Sema) (n : ℕ)

def goto (i : ℕ) (y : SemaPc) : Sema := { x with pc := Function.update x.pc i y }

def set (i : ℕ) (y : PhiState) : Sema := { x with state := Function.update x.state i y }

def setMutex (a : Semaphore) : Sema := { x with mutex := a }

def setS (j : ℕ) (a : Semaphore) : Sema := { x with s := Function.update x.s j a }

/-- The next statement of `philosopher_using_semaphore` for the philosopher `i`. -/
def advance (i : ℕ) : Option Sema :=
  match x.pc i with
  | .idle r => some ((x.setMutex (x.mutex.down i).2).goto i
      (if (x.mutex.down i).1 then .enter r else .enterBlocked r))
  | .enterBlocked r => if i ∈ x.mutex.queue then none else some (x.goto i (.enter r))
  | .enter r => some ((x.set i r.state).goto i (.test r (r.tests n i)))
  | .test r (j :: todo) => some
      (if MayEat n x.state j then (x.set j .eating).goto i (.signal r j todo)
       else x.goto i (.test r todo))
  | .signal r j todo => some ((x.setS j (x.s j).up.2).goto i (.test r todo))
  | .test .take [] => some ((x.setMutex x.mutex.up.2).goto i .takeDown)
  | .test .put [] => some ((x.setMutex x.mutex.up.2).goto i (.idle .take))
  | .takeDown => some ((x.setS i ((x.s i).down i).2).goto i
      (if ((x.s i).down i).1 then .idle .put else .takeBlocked))
  | .takeBlocked => if i ∈ (x.s i).queue then none else some (x.goto i (.idle .put))

def step (i : ℕ) : Option Sema := if i < n then x.advance n i else none

/-- The philosopher has returned from `phi_take_forks_sema`. -/
def Returned (i : ℕ) : Prop := x.pc i = .idle .put

/-- Between `down(&mutex)` and `up(&mutex)`. -/
def Inside (i : ℕ) : Prop :=
  match x.pc i with
  | .enter _ | .test .. | .signal .. => True
  | .idle _ | .enterBlocked _ | .takeDown | .takeBlocked => False

end Sema

/-- The semaphores and states before the first round. -/
def semaInit : Sema where
  mutex := ⟨1, []⟩
  s _ := ⟨0, []⟩
  state _ := .thinking
  pc _ := .idle .take

end Sema

section Condvar

/-- The next statement of a philosopher in its routine, while it executes no statement of the
monitor. `leave` is the end of `phi_take_forks_condvar` after `cond_wait`. -/
inductive CondvarPc
  | idle (r : Routine)
  | enter (r : Routine)
  | test (r : Routine) (todo : List ℕ)
  | signal (r : Routine) (j : ℕ) (todo : List ℕ)
  | leave
deriving DecidableEq

structure Condvar where
  mt : Monitor.State
  state : ℕ → PhiState
  pc : ℕ → CondvarPc

namespace Condvar

variable (x : Condvar) (n : ℕ)

def goto (i : ℕ) (y : CondvarPc) : Condvar := { x with pc := Function.update x.pc i y }

def set (i : ℕ) (y : PhiState) : Condvar := { x with state := Function.update x.state i y }

def monitor (op : Monitor.Op) : Option Condvar := (x.mt.step op).map fun mt => { x with mt }

/-- The statement of the routine of philosopher `i`, inside the monitor. -/
def body (i : ℕ) : Option Condvar :=
  match x.pc i with
  | .idle _ => none
  | .enter r => some ((x.set i r.state).goto i (.test r (r.tests n i)))
  | .test r (j :: todo) => some
      (if MayEat n x.state j then (x.set j .eating).goto i (.signal r j todo)
       else x.goto i (.test r todo))
  | .signal r j todo => (x.monitor (.condSignal i j)).map (·.goto i (.test r todo))
  | .test .take [] =>
    if x.state i ≠ .eating then (x.monitor (.condWait i i)).map (·.goto i .leave)
    else (x.monitor (.leave i)).map (·.goto i (.idle .put))
  | .test .put [] => (x.monitor (.leave i)).map (·.goto i (.idle .take))
  | .leave => (x.monitor (.leave i)).map (·.goto i (.idle .put))

/-- The next statement of `philosopher_using_condvar` for the philosopher `i`. -/
def advance (i : ℕ) : Option Condvar :=
  match x.mt.pc i with
  | .outside =>
    match x.pc i with
    | .idle r => (x.monitor (.enter i)).map (·.goto i (.enter r))
    | _ => none
  | .body => x.body n i
  | _ => x.monitor (.advance i)

def step (i : ℕ) : Option Condvar := if i < n then x.advance n i else none

/-- The philosopher has returned from `phi_take_forks_condvar`. -/
def Returned (i : ℕ) : Prop := x.pc i = .idle .put ∧ x.mt.pc i = .outside

/-- In the monitor: executing one of its statements, or suspended in `cond_signal`. -/
def Inside (i : ℕ) : Prop := (x.mt.pc i).inside = true ∨ (x.mt.pc i).inSignal = true

end Condvar

/-- `monitor_init` and the states before the first round. -/
def condvarInit (n : ℕ) : Condvar where
  mt := { Monitor.monitorInit with procs := Finset.range n }
  state _ := .thinking
  pc _ := .idle .take

end Condvar

end UCore.Philosophers
