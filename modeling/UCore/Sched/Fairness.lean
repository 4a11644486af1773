import UCore.Sched.Safety

/-! # How long a process waits for the processor

The end of `trap` calls `schedule` when the time slice of the current process is used up. A process
in the run queue advances by one place at each `schedule`, and at most `MAX_TIME_SLICE` timer
interrupts pass between two of them, so that it is dispatched in bounded time.
-/

namespace UCore.Sched

open Library State

namespace State

variable (s : State)

/-- The end of `trap` for a trap from user mode. `do_exit` calls `schedule` and does not return. -/
def trapReturn (children : List ℕ) : Except Fault State :=
  if (s.proc s.current).flags &&& pfExiting ≠ 0 then do
    let s ← s.doExit children
    s.schedule
  else if (s.proc s.current).needResched then s.schedule
  else .ok s

/-- A timer interrupt that does not strike the kernel. The loop of `cpu_idle` tests `need_resched`
of `idleproc` as `trap` does for a process in user mode. -/
def userTimer (expired children : List ℕ) : Except Fault State := do
  let s ← s.runTimerList expired
  s.trapReturn children

end State

inductive Event
  | kernel (op : Op)
  | timer (expired children : List ℕ)

namespace Event

def Timer : Event → Prop
  | kernel _ => False
  | timer _ _ => True

instance : DecidablePred Timer
  | kernel _ => isFalse id
  | timer _ _ => isTrue trivial

def Step (s : State) : Event → State → Prop
  | kernel op, t => s.Enabled op ∧ s.exec op = .ok t
  | timer expired children, t => s.Enabled (.tick expired) ∧
      (∀ u, s.runTimerList expired = .ok u → (u.proc u.current).flags &&& pfExiting ≠ 0 →
        u.Enabled (.exit children)) ∧
      s.userTimer expired children = .ok t

end Event

/-- The time slices of the processes in the run queue and of the current one. -/
structure Slices (s : State) : Prop where
  max : s.maxTimeSlice = maxTimeSlice
  queued : ∀ p ∈ s.procs, (s.proc p).onRq = true →
    0 < (s.proc p).timeSlice ∧ (s.proc p).timeSlice ≤ maxTimeSlice
  other : ∀ p ∈ s.procs, p ≠ s.current → (s.proc p).needResched = false
  running : s.current ≠ idleproc → (s.proc s.current).needResched = true ∨
    0 < (s.proc s.current).timeSlice ∧ (s.proc s.current).timeSlice ≤ maxTimeSlice

/-- What the steps that neither count a tick nor call `schedule` do to the time slices. -/
structure Keeps (s t : State) : Prop where
  current : t.current = s.current
  procs : t.procs = s.procs
  picked : t.picked = s.picked
  max : t.maxTimeSlice = s.maxTimeSlice
  enqueued : s.enqueued <+: t.enqueued
  slice : ∀ p, (t.proc p).onRq = (s.proc p).onRq ∧ (t.proc p).timeSlice = (s.proc p).timeSlice ∨
    p ≠ s.current ∧ 0 < (t.proc p).timeSlice ∧ (t.proc p).timeSlice ≤ maxTimeSlice
  other : ∀ p ≠ s.current, (t.proc p).needResched = (s.proc p).needResched
  resched : (s.proc s.current).needResched = true → (t.proc s.current).needResched = true

theorem bind_eq_ok {α β : Type} {r : Except Fault α} {f : α → Except Fault β} {b : β} :
    r >>= f = .ok b ↔ ∃ a, r = .ok a ∧ f a = .ok b := by
  cases r with
  | ok a => simp [bind, Except.bind]
  | error e => simp [bind, Except.bind]

theorem slice_bounds {a : Int32} :
    0 < (if a ≤ 0 ∨ maxTimeSlice < a then maxTimeSlice else a) ∧
      (if a ≤ 0 ∨ maxTimeSlice < a then maxTimeSlice else a) ≤ maxTimeSlice := by
  split
  · decide
  · rename_i h
    rw [not_or, Int32.not_le, Int32.not_lt] at h
    exact h

theorem rrEnqueue_eq {s t : State} {p : ℕ} (hm : s.maxTimeSlice = maxTimeSlice)
    (h : s.rrEnqueue p = .ok t) :
    ∃ x : Proc, t = { s.setProc p x with
        procNum := s.procNum + 1
        links := listAddBefore s.links .runList (.runLink p)
        enqueued := s.enqueued ++ [p] } ∧
      x.onRq = true ∧ 0 < x.timeSlice ∧ x.timeSlice ≤ maxTimeSlice ∧
      x.needResched = (s.proc p).needResched := by
  unfold State.rrEnqueue at h
  split at h
  · cases h
  split at h
  · cases h
  have hb := slice_bounds (a := (s.proc p).timeSlice)
  rw [hm] at h
  exact ⟨_, (Except.ok.inj h).symm, rfl, hb.1, hb.2, rfl⟩

namespace Keeps

variable {s t u : State} {p : ℕ} {x : Proc}

theorem refl (s : State) : Keeps s s := by
  refine ⟨rfl, rfl, rfl, rfl, List.prefix_rfl, ?_, ?_, id⟩
  · intro p
    exact .inl ⟨rfl, rfl⟩
  · intro p _
    rfl

theorem trans (h : Keeps s t) (h' : Keeps t u) : Keeps s u := by
  have hc := h.current
  constructor
  · exact h'.current.trans hc
  · exact h'.procs.trans h.procs
  · exact h'.picked.trans h.picked
  · exact h'.max.trans h.max
  · exact h.enqueued.trans h'.enqueued
  · intro p
    rcases h'.slice p with ⟨hq, hs⟩ | ⟨hp, h₀, h₁⟩
    · rw [hq, hs]
      exact h.slice p
    · exact .inr ⟨hc ▸ hp, h₀, h₁⟩
  · intro p hp
    exact (h'.other p (hc ▸ hp)).trans (h.other p hp)
  · intro hr
    have := h'.resched
    rw [hc] at this
    exact this (h.resched hr)

theorem setProc (hq : x.onRq = (s.proc p).onRq) (hs : x.timeSlice = (s.proc p).timeSlice)
    (hr : x.needResched = (s.proc p).needResched) : Keeps s (s.setProc p x) := by
  have hall : ∀ r, ((s.setProc p x).proc r).onRq = (s.proc r).onRq ∧
      ((s.setProc p x).proc r).timeSlice = (s.proc r).timeSlice ∧
      ((s.setProc p x).proc r).needResched = (s.proc r).needResched := by
    intro r
    rw [setProc_proc]
    split
    · rename_i h
      subst h
      exact ⟨hq, hs, hr⟩
    · exact ⟨rfl, rfl, rfl⟩
  refine ⟨rfl, rfl, rfl, rfl, List.prefix_rfl, ?_, ?_, ?_⟩
  · intro r
    exact .inl ⟨(hall r).1, (hall r).2.1⟩
  · intro r _
    exact (hall r).2.2
  · intro h
    rw [(hall _).2.2]
    exact h

theorem rrEnqueue (hm : s.maxTimeSlice = maxTimeSlice) (hp : p ≠ s.current)
    (h : s.rrEnqueue p = .ok t) : Keeps s t := by
  obtain ⟨x, rfl, -, h₀, h₁, hr⟩ := rrEnqueue_eq hm h
  refine ⟨rfl, rfl, rfl, rfl, List.prefix_append _ _, ?_, ?_, ?_⟩
  · intro r
    rcases eq_or_ne r p with rfl | hrp
    · right
      simpa [hp] using ⟨h₀, h₁⟩
    · left
      simp [hrp]
  · intro r _
    rcases eq_or_ne r p with rfl | hrp
    · simpa using hr
    · simp [hrp]
  · simp [Ne.symm hp]

theorem wakeupProc (hm : s.maxTimeSlice = maxTimeSlice) (h : s.wakeupProc p = .ok t) :
    Keeps s t := by
  unfold State.wakeupProc at h
  split at h
  · cases h
  split at h
  · have k : Keeps s (s.setProc p { s.proc p with state := .runnable, waitState := 0 }) :=
      setProc rfl rfl rfl
    dsimp only at h
    split at h
    · rename_i hp
      unfold schedClassEnqueue at h
      split at h
      · exact k.trans (rrEnqueue hm hp h)
      · cases h
        exact k
    · cases h
      exact k
  · cases h
    exact refl s

theorem wakeupProcs {ps : List ℕ} (hm : s.maxTimeSlice = maxTimeSlice)
    (h : State.wakeupProcs s ps = .ok t) : Keeps s t := by
  induction ps generalizing s with
  | nil =>
    cases h
    exact refl _
  | cons p ps ih =>
    obtain ⟨u, hu, ht⟩ := bind_eq_ok.mp h
    have k := wakeupProc hm hu
    exact k.trans (ih (k.max.trans hm) ht)

theorem doKill {pid : ℕ} (hm : s.maxTimeSlice = maxTimeSlice)
    (h : (s.doKill pid).map Prod.snd = .ok t) : Keeps s t := by
  unfold State.doKill at h
  cases hf : s.findProc pid with
  | none =>
    rw [hf] at h
    cases h
    exact refl s
  | some p =>
    rw [hf] at h
    dsimp only at h
    split at h
    · have k : Keeps s (s.setProc p
          { s.proc p with flags := (s.proc p).flags ||| pfExiting }) := setProc rfl rfl rfl
      split at h
      · cases hw : State.wakeupProc (s.setProc p
          { s.proc p with flags := (s.proc p).flags ||| pfExiting }) p with
        | error e =>
          rw [hw] at h
          cases h
        | ok u =>
          rw [hw] at h
          cases h
          exact k.trans (wakeupProc hm hw)
      · cases h
        exact k
    · cases h
      exact refl s

theorem reparent {l : List ℕ} (hm : s.maxTimeSlice = maxTimeSlice)
    (h : s.reparent l = .ok t) : Keeps s t := by
  induction l generalizing s with
  | nil =>
    cases h
    exact refl _
  | cons q l ih =>
    have k : Keeps s (s.setProc q { s.proc q with parent := initproc }) := setProc rfl rfl rfl
    unfold State.reparent at h
    dsimp only at h
    split at h
    · obtain ⟨u, hu, ht⟩ := bind_eq_ok.mp h
      have k' := k.trans (wakeupProc hm hu)
      exact k'.trans (ih (k'.max.trans hm) ht)
    · exact k.trans (ih hm h)

theorem doExit {l : List ℕ} (hm : s.maxTimeSlice = maxTimeSlice) (h : s.doExit l = .ok t) :
    Keeps s t := by
  have k : Keeps s (s.setProc s.current { s.proc s.current with state := .zombie }) :=
    setProc rfl rfl rfl
  unfold State.doExit at h
  dsimp only at h
  split at h
  · obtain ⟨u, hu, ht⟩ := bind_eq_ok.mp h
    have k' := k.trans (wakeupProc hm hu)
    exact k'.trans (reparent (k'.max.trans hm) ht)
  · exact k.trans (reparent hm h)

theorem doYield (s : State) : Keeps s s.doYield := by
  refine ⟨rfl, rfl, rfl, rfl, List.prefix_rfl, ?_, ?_, ?_⟩
  · intro p
    left
    unfold State.doYield
    rw [setProc_proc]
    split
    · rename_i h
      subst h
      exact ⟨rfl, rfl⟩
    · exact ⟨rfl, rfl⟩
  · intro p hp
    simp [State.doYield, hp]
  · simp [State.doYield]

theorem slices (k : Keeps s t) (h : Slices s) : Slices t := by
  constructor
  · exact k.max.trans h.max
  · intro p hp hq
    rcases k.slice p with ⟨he, hs⟩ | ⟨-, hs⟩
    · rw [hs]
      exact h.queued p (k.procs ▸ hp) (he ▸ hq)
    · exact hs
  · intro p hp hc
    rw [k.current] at hc
    rw [k.other p hc]
    exact h.other p (k.procs ▸ hp) hc
  · intro hi
    rw [k.current] at hi ⊢
    rcases h.running hi with hr | hr
    · exact .inl (k.resched hr)
    · rcases k.slice s.current with ⟨-, hs⟩ | ⟨hc, -⟩
      · rw [hs]
        exact .inr hr
      · exact absurd rfl hc

end Keeps

namespace Slices

variable {s t : State} {p : ℕ}

/-- The process that `do_fork` makes is in no queue. -/
theorem allocProc (h : Slices s) (hc : s.current ∈ s.procs) (hp : p ∉ s.procs) {a : ℕ} :
    Slices ((s.allocProc p).setProc p { (s.allocProc p).proc p with parent := a }) := by
  have hproc : ∀ r, ((s.allocProc p).setProc p
      { (s.allocProc p).proc p with parent := a }).proc r =
      if r = p then ⟨.uninit, 0, 0, false, 0, false, 0, a⟩ else s.proc r := by
    intro r
    simp only [State.allocProc, setProc_proc]
    split <;> simp [*]
  have hne : s.current ≠ p := by
    rintro rfl
    exact hp hc
  constructor
  · exact h.max
  · intro r hr hq
    rw [hproc] at hq ⊢
    rcases eq_or_ne r p with rfl | hrp
    · rw [if_pos rfl] at hq
      cases hq
    · rw [if_neg hrp] at hq ⊢
      exact h.queued r (Finset.mem_of_mem_insert_of_ne hr hrp) hq
  · intro r hr hrc
    rw [hproc]
    rcases eq_or_ne r p with rfl | hrp
    · rw [if_pos rfl]
    · rw [if_neg hrp]
      exact h.other r (Finset.mem_of_mem_insert_of_ne hr hrp) hrc
  · intro hi
    have hcur : ((s.allocProc p).setProc p
        { (s.allocProc p).proc p with parent := a }).current = s.current := rfl
    rw [hcur] at hi ⊢
    rw [hproc, if_neg hne]
    exact h.running hi

theorem reap (h : Slices s) : Slices (s.reap p) := by
  constructor
  · exact h.max
  · intro r hr
    exact h.queued r (Finset.mem_of_mem_erase hr)
  · intro r hr
    exact h.other r (Finset.mem_of_mem_erase hr)
  · exact h.running

end Slices

/-- How many timer interrupts the current process stands before it is preempted. -/
def timeLeft (s : State) : ℕ :=
  if (s.proc s.current).needResched = true ∨ s.current = idleproc then 1
  else (s.proc s.current).timeSlice.toInt.toNat

theorem Slices.timeLeft_bounds {s : State} (h : Slices s) :
    0 < timeLeft s ∧ timeLeft s ≤ 5 := by
  unfold timeLeft
  split
  · omega
  · rename_i hn
    rw [not_or] at hn
    obtain hr | ⟨h₀, h₁⟩ := h.running hn.2
    · exact absurd hr hn.1
    · rw [Int32.lt_iff_toInt_lt] at h₀
      rw [Int32.le_iff_toInt_le] at h₁
      have hm : maxTimeSlice.toInt = 5 := by decide
      have hz : (0 : Int32).toInt = 0 := by decide
      omega

theorem Keeps.timeLeft_le {s t : State} (k : Keeps s t) (h : Slices s) :
    timeLeft t ≤ timeLeft s := by
  have ht := (k.slices h).timeLeft_bounds
  have hs := h.timeLeft_bounds
  unfold timeLeft at ht hs ⊢
  rw [k.current] at ht ⊢
  by_cases hi : s.current = idleproc
  · simp [hi]
  by_cases hr : (s.proc s.current).needResched = true
  · simp [hr, k.resched hr]
  by_cases hr' : (t.proc s.current).needResched = true
  · simp only [hr', true_or, if_true]
    omega
  · rcases k.slice s.current with ⟨-, he⟩ | ⟨hc, -⟩
    · simp [hi, hr, hr', he]
    · exact absurd rfl hc

theorem toInt_pred {a : Int32} (h₀ : 0 < a) (h₁ : a ≤ maxTimeSlice) :
    (a - 1).toInt = a.toInt - 1 := by
  rw [Int32.lt_iff_toInt_lt] at h₀
  rw [Int32.le_iff_toInt_le] at h₁
  have hm : maxTimeSlice.toInt = 5 := by decide
  have hz : (0 : Int32).toInt = 0 := by decide
  have h1 : (1 : Int32).toInt = 1 := by decide
  rw [Int32.toInt_sub, h1, Int.bmod_def]
  omega

/-- A tick preempts the current process or takes a unit of its time slice. -/
theorem Slices.tick {s : State} (h : Slices s) (hq : (s.proc s.current).onRq = false) :
    let t := s.schedClassProcTick s.current
    Slices t ∧ ((t.proc t.current).needResched = true ∨ timeLeft t + 1 ≤ timeLeft s) := by
  have hset : ∀ x : Proc, x.onRq = false → (s.current ≠ idleproc → x.needResched = true ∨
      0 < x.timeSlice ∧ x.timeSlice ≤ maxTimeSlice) → Slices (s.setProc s.current x) := by
    intro x hx hr
    constructor
    · exact h.max
    · intro p hp hpq
      rw [setProc_proc] at hpq ⊢
      split at hpq
      · rw [hx] at hpq
        cases hpq
      · rename_i hpc
        rw [if_neg hpc]
        exact h.queued p hp hpq
    · intro p hp hpc
      rw [setProc_current] at hpc
      rw [setProc_proc, if_neg hpc]
      exact h.other p hp hpc
    · intro hi
      rw [setProc_current, setProc_proc, if_pos rfl]
      exact hr hi
  intro t
  by_cases hi : s.current = idleproc
  · have ht : t = s.setProc s.current { s.proc s.current with needResched := true } :=
      if_neg (by simpa using hi)
    rw [ht]
    refine ⟨hset _ hq fun hn => absurd hi hn, .inl ?_⟩
    simp
  have ht : t = s.rrProcTick s.current := if_pos hi
  rw [ht]
  unfold rrProcTick
  rcases h.running hi with hr | ⟨h₀, h₁⟩
  · refine ⟨hset _ hq fun _ => .inl ?_, .inl ?_⟩
    · simp [hr]
    · simp [hr]
  have hp := toInt_pred h₀ h₁
  rw [if_pos h₀]
  by_cases hz : (s.proc s.current).timeSlice - 1 = 0
  · refine ⟨hset _ hq fun _ => .inl ?_, .inl ?_⟩
    · simp [hz]
    · simp [hz]
  have hpos : 0 < (s.proc s.current).timeSlice - 1 ∧
      (s.proc s.current).timeSlice - 1 ≤ maxTimeSlice := by
    have hne : ((s.proc s.current).timeSlice - 1).toInt ≠ 0 := fun he =>
      hz (Int32.toInt_inj.mp (he.trans (by decide)))
    rw [Int32.lt_iff_toInt_lt, Int32.le_iff_toInt_le] at *
    have hz' : (0 : Int32).toInt = 0 := by decide
    omega
  refine ⟨hset _ hq fun _ => .inr hpos, ?_⟩
  by_cases hn : (s.proc s.current).needResched = true
  · left
    simp [hn]
  · right
    have hs : timeLeft s = (s.proc s.current).timeSlice.toInt.toNat := by simp [timeLeft, hi, hn]
    rw [hs, Int32.lt_iff_toInt_lt] at *
    have hz' : (0 : Int32).toInt = 0 := by decide
    simp only [timeLeft, setProc_current, setProc_proc, if_true, hz, if_false, hn, hi, or_self,
      Bool.false_eq_true, hp]
    omega

/-- All that `schedule` needs of the time slices. -/
structure Rested (s : State) : Prop where
  max : s.maxTimeSlice = maxTimeSlice
  queued : ∀ p ∈ s.procs, (s.proc p).onRq = true →
    0 < (s.proc p).timeSlice ∧ (s.proc p).timeSlice ≤ maxTimeSlice
  resched : ∀ p ∈ s.procs, (s.proc p).needResched = false

namespace Rested

variable {s t : State} {p n : ℕ}

theorem of_slices (h : Slices s) :
    Rested (s.setProc s.current { s.proc s.current with needResched := false }) := by
  constructor
  · exact h.max
  · intro p hp hq
    rw [setProc_proc] at hq ⊢
    split
    · rename_i hpc
      subst hpc
      rw [if_pos rfl] at hq
      exact h.queued _ hp hq
    · rename_i hpc
      rw [if_neg hpc] at hq
      exact h.queued p hp hq
  · intro p hp
    rw [setProc_proc]
    split
    · rfl
    · exact h.other p hp ‹_›

theorem rrEnqueue (h : Rested s) (ht : s.rrEnqueue p = .ok t) : Rested t := by
  obtain ⟨x, rfl, -, h₀, h₁, hr⟩ := rrEnqueue_eq h.max ht
  constructor
  · exact h.max
  · intro r hr' hq
    rcases eq_or_ne r p with rfl | hrp
    · simpa using ⟨h₀, h₁⟩
    · simp only [setProc_proc, if_neg hrp] at hq ⊢
      exact h.queued r hr' hq
  · intro r hr'
    rcases eq_or_ne r p with rfl | hrp
    · simpa [hr] using h.resched r hr'
    · simp only [setProc_proc, if_neg hrp]
      exact h.resched r hr'

theorem enqueueCurrent (h : Rested s) (ht : s.enqueueCurrent = .ok t) :
    Rested t ∧ s.enqueued <+: t.enqueued ∧ t.picked = s.picked := by
  have hs : Rested s ∧ s.enqueued <+: s.enqueued ∧ s.picked = s.picked :=
    ⟨h, List.prefix_rfl, rfl⟩
  unfold State.enqueueCurrent at ht
  split at ht
  · unfold schedClassEnqueue at ht
    split at ht
    · have hr := h.rrEnqueue ht
      obtain ⟨x, rfl, -⟩ := rrEnqueue_eq h.max ht
      exact ⟨hr, List.prefix_append _ _, rfl⟩
    · cases ht
      exact hs
  · cases ht
    exact hs

theorem dispatch (h : Rested s) (hn : n ∈ s.procs) (ht : s.rrDequeue n = .ok t) (a : Int32) :
    Slices ((t.setProc n { t.proc n with runs := a }).procRun n) ∧ t.enqueued = s.enqueued ∧
      t.picked = s.picked ++ [n] := by
  unfold State.rrDequeue at ht
  split at ht
  · cases ht
  rename_i hq
  split at ht
  · cases ht
  have hq' : (s.proc n).onRq = true := by simpa using hq
  obtain rfl := Except.ok.inj ht
  rw [Inv.procRun_eq]
  refine ⟨⟨h.max, ?_, ?_, ?_⟩, rfl, rfl⟩
  · intro r hr hrq
    rcases eq_or_ne r n with rfl | hrn
    · simp at hrq
    · simp only [setProc_proc, if_neg hrn] at hrq ⊢
      exact h.queued r hr hrq
  · intro r hr hrn
    change r ≠ n at hrn
    simp only [setProc_proc, if_neg hrn]
    exact h.resched r hr
  · intro _
    right
    simpa using h.queued n hn hq'

theorem dispatchIdle (h : Rested s) (a : Int32) :
    Slices ((s.setProc idleproc { s.proc idleproc with runs := a }).procRun idleproc) := by
  rw [Inv.procRun_eq]
  refine ⟨h.max, ?_, ?_, fun hi => absurd rfl hi⟩
  · intro r hr hrq
    rcases eq_or_ne r idleproc with rfl | hri
    · simp only [setProc_proc, if_true] at hrq ⊢
      exact h.queued _ hr hrq
    · simp only [setProc_proc, if_neg hri] at hrq ⊢
      exact h.queued r hr hrq
  · intro r hr hri
    change r ≠ idleproc at hri
    simp only [setProc_proc, if_neg hri]
    exact h.resched r hr

end Rested

/-- `schedule` dispatches the first process of the run queue. -/
theorem Slices.schedule {s t : State} {q : List ℕ} (h : Slices s) (k : Inv s q [])
    (ht : s.schedule = .ok t) :
    Slices t ∧ s.enqueued <+: t.enqueued ∧
      ∀ n r, q = n :: r → t.current = n ∧ t.picked = s.picked ++ [n] := by
  obtain ⟨k₁, -⟩ := k.setProc (p := s.current)
    (x := { s.proc s.current with needResched := false }) rfl rfl rfl
  obtain ⟨s₂, q₂, h₂, k₂, -, -⟩ := k₁.enqueueCurrent
  obtain ⟨hr, hpre, hpick⟩ := (Rested.of_slices h).enqueueCurrent h₂
  have hq : q <+: q₂ := by
    have h₀ := k₁.queue.fifo
    rw [h₀, k₂.fifo, hpick] at hpre
    exact (List.prefix_append_right_inj _).mp hpre
  have hnext := k₂.rrPickNext
  obtain ⟨s₂', h₂', ht⟩ := bind_eq_ok.mp ht
  obtain rfl := Except.ok.inj (h₂.symm.trans h₂')
  obtain ⟨⟨n, s₃⟩, h₃, ht⟩ := bind_eq_ok.mp ht
  unfold State.dequeueNext at h₃
  rw [hnext] at h₃
  obtain rfl := Except.ok.inj ht
  rcases q₂ with _ | ⟨m, q₂⟩
  · obtain ⟨rfl, rfl⟩ : idleproc = n ∧ s₂ = s₃ := by simpa using h₃
    refine ⟨hr.dispatchIdle _, ?_, ?_⟩
    · rw [Inv.procRun_eq]
      exact hpre
    · rintro n r rfl
      exact absurd (List.prefix_nil.mp hq) (by simp)
  · dsimp only [List.head?_cons] at h₃
    cases hd : s₂.rrDequeue m with
    | error e =>
      rw [hd] at h₃
      cases h₃
    | ok s₄ =>
      rw [hd] at h₃
      obtain ⟨rfl, rfl⟩ : m = n ∧ s₄ = s₃ := by simpa [Except.map] using h₃
      obtain ⟨hslices, henq, hpk⟩ := hr.dispatch (k₂.sub m (by simp)) hd ((s₄.proc m).runs + 1)
      refine ⟨hslices, ?_, ?_⟩
      · rw [Inv.procRun_eq]
        change s.enqueued <+: s₄.enqueued
        rw [henq]
        exact hpre
      · rintro n r rfl
        obtain ⟨rfl, -⟩ := List.cons_prefix_cons.mp hq
        rw [Inv.procRun_eq]
        refine ⟨rfl, ?_⟩
        change s₄.picked = _
        rw [hpk, hpick]
        rfl

/-- A step inside the kernel that dispatches nobody and does not lengthen a time slice. -/
structure Quiet (s t : State) : Prop where
  slices : Slices t
  picked : t.picked = s.picked
  enqueued : s.enqueued <+: t.enqueued
  timeLeft : timeLeft t ≤ timeLeft s

namespace Quiet

variable {s t u : State} {q : List ℕ}

theorem trans (h : Quiet s t) (h' : Quiet t u) : Quiet s u :=
  ⟨h'.slices, h'.picked.trans h.picked, h.enqueued.trans h'.enqueued,
    h'.timeLeft.trans h.timeLeft⟩

theorem of_keeps (h : Slices s) (k : Keeps s t) : Quiet s t :=
  ⟨k.slices h, k.picked, k.enqueued, k.timeLeft_le h⟩

theorem fork (k : Inv s q []) (h : Slices s) {child : ℕ} (hc : child ∉ s.procs)
    (ht : s.doFork child = .ok t) : Quiet s t := by
  unfold State.doFork at ht
  split at ht
  · cases ht
    exact ⟨h, rfl, List.prefix_rfl, le_rfl⟩
  split at ht
  · cases ht
  dsimp only at ht
  have hs := h.allocProc k.tree.current hc (a := s.current)
  have hw := of_keeps hs (Keeps.wakeupProc hs.max ht)
  have hne : s.current ≠ child := by
    rintro rfl
    exact hc k.tree.current
  have hl : Sched.timeLeft ((s.allocProc child).setProc child
      { (s.allocProc child).proc child with parent := s.current }) = Sched.timeLeft s := by
    have hcur : ((s.allocProc child).setProc child
      { (s.allocProc child).proc child with parent := s.current }).current = s.current := rfl
    unfold Sched.timeLeft
    rw [hcur]
    simp [State.allocProc, hne]
  exact ⟨hw.slices, hw.picked, hw.enqueued, hw.timeLeft.trans hl.le⟩

/-- The wakeups of `run_timer_list`, and its tick. -/
theorem tick (k : Inv s q []) (h : Slices s) {expired : List ℕ} (he : s.Enabled (.tick expired))
    (ht : s.runTimerList expired = .ok t) :
    Quiet s t ∧ ((t.proc t.current).needResched = true ∨
      Sched.timeLeft t + 1 ≤ Sched.timeLeft s) := by
  obtain ⟨u, hu, ht⟩ := bind_eq_ok.mp ht
  obtain rfl := Except.ok.inj ht
  have hw := of_keeps h (Keeps.wakeupProcs h.max hu)
  obtain ⟨q', k', -⟩ : ∃ q', Inv u q' [] ∧ Wakes s u := by
    have := k.wakeupProcs expired he
    rwa [hu] at this
  have hq : (u.proc u.current).onRq = false := by
    have hc : u.current ∉ q' := fun hm => ((k'.mem _ k'.tree.current).mp hm).2.1 rfl
    simpa [hc] using k'.queue.rq _ k'.tree.current
  obtain ⟨hs, hd⟩ := hw.slices.tick hq
  have hrec : (u.schedClassProcTick u.current).picked = u.picked ∧
      (u.schedClassProcTick u.current).enqueued = u.enqueued := by
    unfold schedClassProcTick rrProcTick
    split
    · exact ⟨rfl, rfl⟩
    · exact ⟨rfl, rfl⟩
  have hl : Sched.timeLeft (u.schedClassProcTick u.current) ≤ Sched.timeLeft u := by
    rcases hd with hr | hlt
    · have := hw.slices.timeLeft_bounds
      rw [Sched.timeLeft, if_pos (.inl hr)]
      exact this.1
    · omega
  refine ⟨hw.trans ⟨hs, hrec.1, ?_, hl⟩, ?_⟩
  · rw [hrec.2]
  · have := hw.timeLeft
    rcases hd with hr | hlt
    · exact .inl hr
    · exact .inr (by omega)

theorem exec (k : Inv s q []) (h : Slices s) {op : Op} (he : s.Enabled op)
    (ht : s.exec op = .ok t) (hop : op ≠ .schedule) : Quiet s t := by
  have hm := h.max
  cases op with
  | fork child => exact fork k h he.2 ht
  | wakeup r => exact of_keeps h (Keeps.wakeupProc hm ht)
  | schedule => exact absurd rfl hop
  | tick expired => exact (tick k h he ht).1
  | sleep a =>
    cases ht
    refine of_keeps h (Keeps.setProc ?_ ?_ ?_) <;> rfl
  | yield =>
    cases ht
    exact of_keeps h (Keeps.doYield s)
  | kill pid => exact of_keeps h (Keeps.doKill hm ht)
  | exit children => exact of_keeps h (Keeps.doExit hm ht)
  | wait child =>
    cases ht
    exact ⟨h.reap, rfl, List.prefix_rfl, le_rfl⟩

end Quiet

/-- The run queue, from the record of the calls. -/
def runQueue (s : State) : List ℕ := s.enqueued.drop s.picked.length

/-- What holds in every reachable state. -/
structure Good (s : State) : Prop where
  inv : Inv s (runQueue s) []
  slices : Slices s

theorem Inv.good {s : State} {q : List ℕ} (k : Inv s q []) (h : Slices s) :
    Good s ∧ runQueue s = q := by
  have hq : runQueue s = q := by rw [runQueue, k.queue.fifo, List.drop_left]
  exact ⟨⟨hq.symm ▸ k, h⟩, hq⟩

/-- A bound on the timer interrupts until `p` is dispatched. -/
def wait (p : ℕ) (s : State) : ℕ := 5 * (runQueue s).idxOf p + timeLeft s

/-- The process `p` is in the run queue, no further from the processor than before. -/
def Nearer (p d : ℕ) (s t : State) : Prop := p ∈ runQueue t ∧ wait p t + d ≤ wait p s

namespace Good

variable {s t : State} {p : ℕ}

theorem quiet (g : Good s) (h : Quiet s t) (hk : ∃ q, Inv t q []) :
    Good t ∧ (p ∈ runQueue s → Nearer p 0 s t ∧ (runQueue t).idxOf p = (runQueue s).idxOf p) := by
  obtain ⟨q, k⟩ := hk
  obtain ⟨gt, hq⟩ := k.good h.slices
  refine ⟨gt, fun hp => ?_⟩
  obtain ⟨r, hr⟩ : runQueue s <+: runQueue t := by
    have hf := g.inv.queue.fifo
    have he := h.enqueued
    rw [hf, gt.inv.queue.fifo, h.picked] at he
    exact (List.prefix_append_right_inj _).mp he
  have hi : (runQueue t).idxOf p = (runQueue s).idxOf p := by
    rw [← hr]
    exact List.idxOf_append_of_mem hp
  refine ⟨⟨?_, ?_⟩, hi⟩
  · rw [← hr]
    exact List.mem_append_left r hp
  · have := h.timeLeft
    unfold wait
    rw [hi]
    omega

/-- At `schedule` a process moves to the front by one place. -/
theorem schedule (g : Good s) (ht : s.schedule = .ok t) :
    Good t ∧ (p ∈ runQueue s → t.current = p ∨ Nearer p 1 s t) := by
  obtain ⟨u, q', hu, k⟩ := g.inv.schedule
  obtain rfl := Except.ok.inj (hu.symm.trans ht)
  obtain ⟨hs, he, hn⟩ := g.slices.schedule g.inv ht
  obtain ⟨gt, hq'⟩ := k.good hs
  refine ⟨gt, fun hp => ?_⟩
  rcases hq : runQueue s with _ | ⟨n, r⟩
  · rw [hq] at hp
    simp at hp
  obtain ⟨hc, hpk⟩ := hn n r hq
  rcases eq_or_ne n p with rfl | hne
  · exact .inl hc
  right
  obtain ⟨r', hr'⟩ : r <+: runQueue u := by
    have hf := g.inv.queue.fifo
    rw [hf, hq, gt.inv.queue.fifo, hpk, List.append_assoc] at he
    simpa using he
  have hpr : p ∈ r := by
    rw [hq] at hp
    simpa [Ne.symm hne] using hp
  refine ⟨?_, ?_⟩
  · rw [← hr']
    exact List.mem_append_left r' hpr
  · have hi : (runQueue u).idxOf p = r.idxOf p := by
      rw [← hr']
      exact List.idxOf_append_of_mem hpr
    have hi' : (runQueue s).idxOf p = r.idxOf p + 1 := by
      rw [hq]
      exact List.idxOf_cons_ne r hne
    have := hs.timeLeft_bounds
    have := g.slices.timeLeft_bounds
    unfold wait
    omega

theorem exec (g : Good s) {op : Op} (he : s.Enabled op) (ht : s.exec op = .ok t) :
    Good t ∧ (p ∈ runQueue s → t.current = p ∨ Nearer p 0 s t) := by
  by_cases hop : op = .schedule
  · subst hop
    obtain ⟨gt, h⟩ := g.schedule (p := p) ht
    refine ⟨gt, fun hp => (h hp).imp id fun hn => ⟨hn.1, ?_⟩⟩
    have := hn.2
    omega
  · have hk : ∃ q, Inv t q [] := by
      have := g.inv.step he
      rwa [ht] at this
    obtain ⟨gt, h⟩ := g.quiet (p := p) (Quiet.exec g.inv g.slices he ht hop) hk
    exact ⟨gt, fun hp => .inr (h hp).1⟩

/-- After a timer interrupt the processor is given away or the current process has lost a unit of
its time slice. -/
theorem userTimer (g : Good s) {expired children : List ℕ} (he : s.Enabled (.tick expired))
    (hx : ∀ u, s.runTimerList expired = .ok u → (u.proc u.current).flags &&& pfExiting ≠ 0 →
      u.Enabled (.exit children))
    (ht : s.userTimer expired children = .ok t) :
    Good t ∧ (p ∈ runQueue s → t.current = p ∨ Nearer p 1 s t) := by
  obtain ⟨u, hu, ht⟩ := bind_eq_ok.mp ht
  have hk : ∃ q, Inv u q [] := by
    have := g.inv.step he
    rwa [State.exec, hu] at this
  obtain ⟨hquiet, hd⟩ := Quiet.tick g.inv g.slices he hu
  obtain ⟨gu, hnear⟩ := g.quiet (p := p) hquiet hk
  have hthen : ∀ v, Good v → v.schedule = .ok t → (p ∈ runQueue s → Nearer p 0 s v) →
      Good t ∧ (p ∈ runQueue s → t.current = p ∨ Nearer p 1 s t) := by
    intro v gv hv hsv
    obtain ⟨gt, h⟩ := gv.schedule (p := p) hv
    refine ⟨gt, fun hp => ?_⟩
    rcases h (hsv hp).1 with hc | ⟨hm, hw⟩
    · exact .inl hc
    · have := (hsv hp).2
      exact .inr ⟨hm, by omega⟩
  unfold trapReturn at ht
  split at ht
  · rename_i hflag
    have hen := hx u hu hflag
    obtain ⟨v, hv, ht⟩ := bind_eq_ok.mp ht
    have hk' : ∃ q, Inv v q [] := by
      have := gu.inv.step hen
      rwa [State.exec, hv] at this
    obtain ⟨gv, hnear'⟩ := gu.quiet (p := p) (Quiet.exec gu.inv gu.slices hen hv (by simp)) hk'
    refine hthen v gv ht fun hp => ?_
    have h := (hnear hp).1
    have h' := (hnear' h.1).1
    exact ⟨h'.1, h'.2.trans h.2⟩
  split at ht
  · exact hthen u gu ht fun hp => (hnear hp).1
  · rename_i hr
    obtain rfl := Except.ok.inj ht
    refine ⟨gu, fun hp => .inr ?_⟩
    obtain ⟨⟨hm, -⟩, hi⟩ := hnear hp
    refine ⟨hm, ?_⟩
    have := hd.resolve_left hr
    unfold wait
    rw [hi]
    omega

theorem step (g : Good s) {e : Event} (h : Event.Step s e t) :
    Good t ∧ (p ∈ runQueue s → t.current = p ∨ Nearer p (if e.Timer then 1 else 0) s t) := by
  cases e with
  | kernel op => exact g.exec h.1 h.2
  | timer expired children => exact g.userTimer h.1 h.2.1 h.2.2

theorem boot : ∃ s, procInit = .ok s ∧ Good s := by
  obtain ⟨s, hs, k⟩ := Inv.boot
  refine ⟨s, hs, (k.good ?_).1⟩
  obtain rfl := Except.ok.inj hs
  constructor
  · rfl
  · decide
  · decide
  · intro h
    exact absurd rfl h

end Good

/-- A process with `k` processes before it in the run queue is dispatched within
`MAX_TIME_SLICE * (k + 1)` timer interrupts in user mode, whatever else happens. -/
theorem dispatched_within :
    ∃ s₀, procInit = .ok s₀ ∧ ∀ l s, Runs Event.Step s₀ l s → ∀ q k p, Safe s q → q[k]? = some p →
      ∀ l' t, Runs Event.Step s l' t →
        maxTimeSlice.toInt.toNat * (k + 1) ≤ l'.countP (Event.Timer ·) →
        ∃ l₁ l₂ u, l' = l₁ ++ l₂ ∧ Runs Event.Step s l₁ u ∧ Runs Event.Step u l₂ t ∧
          u.current = p := by
  obtain ⟨s₀, h₀, g₀⟩ := Good.boot
  refine ⟨s₀, h₀, fun l s hr q k p hq hp l' t hr' hl => ?_⟩
  have g : Good s := hr.invariant (fun _ _ _ g h => (g.step (p := 0) h).1) g₀
  have he : runQueue s = q := by rw [runQueue, hq.fifo, List.drop_left]
  have hmem : p ∈ runQueue s := by
    rw [he]
    exact List.mem_of_getElem? hp
  have hi : (runQueue s).idxOf p ≤ k := by
    rw [he]
    obtain ⟨hk, rfl⟩ := List.getElem?_eq_some_iff.mp hp
    exact (hq.once.idxOf_getElem k hk).le
  have hb := g.slices.timeLeft_bounds
  refine hr'.reaches (P := fun s => Good s ∧ p ∈ runQueue s) (μ := wait p) (L := Event.Timer) ?_ ?_
    ⟨g, hmem⟩ ?_
  · rintro s ⟨g, -⟩
    have := g.slices.timeLeft_bounds
    unfold wait
    omega
  · rintro s e t ⟨g, hm⟩ hstep
    obtain ⟨gt, h⟩ := g.step (p := p) hstep
    exact (h hm).imp id fun hn => ⟨⟨gt, hn.1⟩, hn.2⟩
  · have hm : maxTimeSlice.toInt.toNat = 5 := by decide
    rw [hm] at hl
    unfold wait
    omega

theorem schedule_flags {s t : State} (ht : s.schedule = .ok t) (p : ℕ) :
    (t.proc p).flags = (s.proc p).flags := by
  have hset : ∀ {s : State} {q : ℕ} {x : Proc}, x.flags = (s.proc q).flags →
      ((s.setProc q x).proc p).flags = (s.proc p).flags := by
    intro s q x hx
    rw [setProc_proc]
    split
    · rename_i h
      rw [hx, h]
    · rfl
  obtain ⟨u, hu, ht⟩ := bind_eq_ok.mp ht
  obtain ⟨⟨n, v⟩, hv, ht⟩ := bind_eq_ok.mp ht
  obtain rfl := Except.ok.inj ht
  have h₁ : (u.proc p).flags = (s.proc p).flags := by
    refine Eq.trans ?_ (hset (s := s) (q := s.current)
      (x := { s.proc s.current with needResched := false }) rfl)
    unfold State.enqueueCurrent schedClassEnqueue State.rrEnqueue at hu
    split at hu
    · split at hu
      · split at hu
        · cases hu
        split at hu
        · cases hu
        obtain rfl := Except.ok.inj hu
        exact hset rfl
      · cases hu
        rfl
    · cases hu
      rfl
  have h₂ : (v.proc p).flags = (u.proc p).flags := by
    unfold State.dequeueNext at hv
    split at hv
    · rename_i m _
      unfold State.rrDequeue at hv
      split at hv
      · cases hv
      split at hv
      · cases hv
      obtain ⟨-, rfl⟩ := Prod.mk.inj (Except.ok.inj hv)
      exact hset rfl
    · obtain ⟨-, rfl⟩ := Prod.mk.inj (Except.ok.inj hv)
      rfl
  rw [Inv.procRun_eq]
  have h₃ := hset (s := v) (q := n) (x := { v.proc n with runs := (v.proc n).runs + 1 }) rfl
  exact h₃.trans (h₂.trans h₁)

theorem Good.timer_ok {s : State} (g : Good s) (hf : ∀ p, (s.proc p).flags = 0) :
    ∃ t, Event.Step s (.timer [] []) t ∧ Good t ∧ ∀ p, (t.proc p).flags = 0 := by
  let u := s.schedClassProcTick s.current
  have hu : s.runTimerList [] = .ok u := rfl
  have hf' : ∀ p, (u.proc p).flags = 0 := by
    intro p
    simp only [u, schedClassProcTick, rrProcTick]
    split
    · rw [setProc_proc]
      split <;> simp [hf]
    · rw [setProc_proc]
      split <;> simp [hf]
  have he : s.Enabled (.tick []) := fun p hp => absurd hp List.not_mem_nil
  have hx : ∀ v, s.runTimerList [] = .ok v → (v.proc v.current).flags &&& pfExiting ≠ 0 →
      v.Enabled (.exit []) := by
    intro v hv hflag
    obtain rfl := Except.ok.inj hv
    rw [hf'] at hflag
    exact absurd rfl hflag
  obtain ⟨q, k⟩ : ∃ q, Inv u q [] := g.inv.step he
  obtain ⟨t, ht, hft⟩ : ∃ t, s.userTimer [] [] = .ok t ∧ ∀ p, (t.proc p).flags = 0 := by
    have hr : s.userTimer [] [] = u.trapReturn [] := rfl
    rw [hr, trapReturn, if_neg (by simp [hf'])]
    split
    · obtain ⟨t, -, ht, -⟩ := k.schedule
      exact ⟨t, ht, fun p => (schedule_flags ht p).trans (hf' p)⟩
    · exact ⟨u, rfl, hf'⟩
  exact ⟨t, ⟨he, hx, ht⟩, (g.userTimer (p := 0) he hx ht).1, hft⟩

/-- The first process leaves `idleproc` within five timer interrupts. -/
theorem dispatched_within_initproc :
    ∃ s₀ l₁ l₂ u, procInit = .ok s₀ ∧ List.replicate 5 (.timer [] []) = l₁ ++ l₂ ∧
      Runs Event.Step s₀ l₁ u ∧ u.current = initproc := by
  obtain ⟨s₀, h₀, h⟩ := dispatched_within
  obtain ⟨s, hs, k⟩ := Inv.boot
  obtain ⟨s', hs', g⟩ := Good.boot
  obtain rfl := Except.ok.inj (hs.symm.trans h₀)
  obtain rfl := Except.ok.inj (hs.symm.trans hs')
  have hf : ∀ p, (s.proc p).flags = 0 := by
    obtain rfl := Except.ok.inj h₀
    intro p
    rcases eq_or_ne p initproc with rfl | hp
    · rfl
    · simp [schedInit, State.allocProc, hp]
  have hrun : ∀ n s, Good s → (∀ p, (s.proc p).flags = 0) →
      ∃ t, Runs Event.Step s (List.replicate n (.timer [] [])) t := by
    intro n
    induction n with
    | zero => exact fun s _ _ => ⟨s, .nil s⟩
    | succ n ih =>
      intro s g hf
      obtain ⟨t, hst, gt, hft⟩ := g.timer_ok hf
      obtain ⟨u, hu⟩ := ih t gt hft
      exact ⟨u, .cons hst hu⟩
  obtain ⟨t, ht⟩ := hrun 5 s g hf
  obtain ⟨l₁, l₂, u, hl, h₁, -, hu⟩ :=
    h [] s (.nil s) [initproc] 0 initproc k.safe rfl _ t ht (by decide)
  exact ⟨s, l₁, l₂, u, h₀, hl, h₁, hu⟩

end UCore.Sched
