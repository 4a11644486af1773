import Mathlib.Data.Int.Order.Basic
import UCore.Defs
import UCore.Process.State
import UCore.SkewHeap.Correct
import UCore.SkewHeap.Trees

/-! # The stride scheduler

The `lab6` version of `kern/schedule/sched.c` with the class of
`default_sched_stride.c`. The comparisons of the run pool read the strides of
the processes, and `none` is a failed assertion or a recursion of the skew heap
that was cut off.
-/

namespace UCore.Stride

open SkewHeap

structure Proc where
  state : ProcState
  waitState : UInt32
  needResched : Bool
  runs : Int32
  timeSlice : Int32
  /-- `proc->rq == rq`, there being one run queue. -/
  onRq : Bool
  lab6Stride : BitVec 32
  lab6Priority : BitVec 32

structure State where
  proc : ℕ → Proc
  /-- The `lab6_run_pool` of the processes. -/
  entries : Entries
  runPool : Option ℕ
  procNum : UInt32
  maxTimeSlice : Int32
  current : ℕ

def bigStride : BitVec 32 := 0x7FFFFFFF

def maxTimeSlice : Int32 := 5

namespace State

variable (fuel : ℕ) (s : State) (p : ℕ)

def setProc (x : Proc) : State := { s with proc := Function.update s.proc p x }

def procStrideCompF (a b : ℕ) : ℤ :=
  let c := ((s.proc a).lab6Stride - (s.proc b).lab6Stride).toInt
  if 0 < c then 1 else if c = 0 then 0 else -1

def strideInit : State := { s with runPool := none, procNum := 0 }

def schedInit : State := strideInit { s with maxTimeSlice := Stride.maxTimeSlice }

def strideEnqueue : Option State :=
  (skewHeapInsert s.procStrideCompF fuel s.entries s.runPool p).map fun o =>
    let s := { s with runPool := o.1, entries := o.2 }
    let slice := if (s.proc p).timeSlice = 0 ∨ s.maxTimeSlice < (s.proc p).timeSlice
      then s.maxTimeSlice else (s.proc p).timeSlice
    { s.setProc p { s.proc p with timeSlice := slice, onRq := true } with
      procNum := s.procNum + 1 }

def strideDequeue : Option State :=
  (skewHeapRemove s.procStrideCompF fuel s.entries s.runPool p).map fun o =>
    { s with runPool := o.1, entries := o.2, procNum := s.procNum - 1 }

/-- What a pick adds to the stride of a process. -/
def pass : BitVec 32 :=
  if (s.proc p).lab6Priority = 0 then bigStride else bigStride / (s.proc p).lab6Priority

def stridePickNext : Option ℕ × State :=
  match s.runPool with
  | none => (none, s)
  | some p =>
    (some p, s.setProc p { s.proc p with lab6Stride := (s.proc p).lab6Stride + s.pass p })

def strideProcTick : State :=
  let slice := if 0 < (s.proc p).timeSlice then (s.proc p).timeSlice - 1 else (s.proc p).timeSlice
  s.setProc p { s.proc p with
    timeSlice := slice, needResched := if slice = 0 then true else (s.proc p).needResched }

def schedClassEnqueue : Option State :=
  if p ≠ idleproc then s.strideEnqueue fuel p else some s

def schedClassProcTick : State :=
  if p ≠ idleproc then s.strideProcTick p else s.setProc p { s.proc p with needResched := true }

def wakeupProc : Option State :=
  if (s.proc p).state = .zombie then none
  else if (s.proc p).state ≠ .runnable then
    let s := s.setProc p { s.proc p with state := .runnable, waitState := 0 }
    if p ≠ s.current then s.schedClassEnqueue fuel p else some s
  else some s

/-- `schedule`, its test of the current process. -/
def enqueueCurrent : Option State :=
  if (s.proc s.current).state = .runnable then s.schedClassEnqueue fuel s.current else some s

/-- `schedule`, its choice of the next process. -/
def dequeueNext : Option (ℕ × State) :=
  match s.stridePickNext with
  | (some next, s) => (s.strideDequeue fuel next).map fun s => (next, s)
  | (none, s) => some (idleproc, s)

/-- The end of `schedule`, with `proc_run`. -/
def run (next : ℕ) : State :=
  let s := s.setProc next { s.proc next with runs := (s.proc next).runs + 1 }
  if next ≠ s.current then { s with current := next } else s

def schedule : Option State :=
  ((s.setProc s.current { s.proc s.current with needResched := false }).enqueueCurrent fuel).bind
    fun s => (s.dequeueNext fuel).map fun o => o.2.run o.1

/-- `alloc_proc`, as far as the fields above go. -/
def allocProc : State :=
  { s.setProc p ⟨.uninit, 0, false, 0, 0, false, 0, 1⟩ with entries := skewHeapInit s.entries p }

def lab6SetPriority (priority : BitVec 32) : State :=
  s.setProc s.current
    { s.proc s.current with lab6Priority := if priority = 0 then 1 else priority }

/-- `do_wait` and `do_exit`, which set the state of the current process before `schedule`. -/
def block (state : ProcState) : State :=
  s.setProc s.current { s.proc s.current with state := state }

end State

/-! ## Runs -/

inductive Event
  | schedule
  | fork (p : ℕ)
  | wakeup (p : ℕ)
  | block (state : ProcState)
  | setPriority (priority : BitVec 32)
  | tick
  deriving DecidableEq

/-- The scheduler with the unbounded stride of every process and the number of times it was
picked. -/
structure Config where
  state : State
  total : ℕ → ℕ
  picks : ℕ → ℕ

namespace Config

variable (c : Config)

/-- The process that `schedule` has picked advances. -/
def advance (s : State) : Config :=
  if s.current = idleproc then { c with state := s }
  else
    { state := s
      total := Function.update c.total s.current
        (c.total s.current + (c.state.pass s.current).toNat)
      picks := Function.update c.picks s.current (c.picks s.current + 1) }

/-- A fork is given memory that belongs to no process, a wakeup names a sleeping process, and the
current process may go to sleep or exit. -/
def Allowed : Event → Prop
  | .schedule => True
  | .fork p => p ≠ idleproc ∧ p ≠ c.state.current ∧
      ((c.state.proc p).state = .uninit ∨ (c.state.proc p).state = .zombie)
  | .wakeup p => p ≠ idleproc ∧ (c.state.proc p).state = .sleeping
  | .block st => c.state.current ≠ idleproc ∧ (st = .sleeping ∨ st = .zombie)
  | .setPriority _ => True
  | .tick => True

instance (e : Event) : Decidable (c.Allowed e) :=
  match e with
  | .schedule | .setPriority _ | .tick => isTrue trivial
  | .fork p => inferInstanceAs (Decidable (p ≠ idleproc ∧ p ≠ c.state.current ∧
      ((c.state.proc p).state = .uninit ∨ (c.state.proc p).state = .zombie)))
  | .wakeup p => inferInstanceAs (Decidable (p ≠ idleproc ∧ (c.state.proc p).state = .sleeping))
  | .block st => inferInstanceAs
      (Decidable (c.state.current ≠ idleproc ∧ (st = .sleeping ∨ st = .zombie)))

def call (fuel : ℕ) : Event → Option Config
  | .schedule => (c.state.schedule fuel).map c.advance
  | .fork p => ((c.state.allocProc p).wakeupProc fuel p).map fun s =>
      { state := s
        total := Function.update c.total p 0
        picks := Function.update c.picks p 0 }
  | .wakeup p => (c.state.wakeupProc fuel p).map fun s => { c with state := s }
  | .block st => some { c with state := c.state.block st }
  | .setPriority v => some { c with state := c.state.lab6SetPriority v }
  | .tick => some { c with state := c.state.schedClassProcTick c.state.current }

/-- Counting from the present strides. -/
def start (s : State) : Config := ⟨s, fun p => (s.proc p).lab6Stride.toNat, fun _ => 0⟩

end Config

/-- After `sched_init`, with `idleproc` as the only process. -/
def boot (s : State) : State :=
  State.schedInit { s with
    current := idleproc
    proc := fun p => { s.proc p with state := if p = idleproc then .runnable else .uninit } }

/-! ## The run pool

As long as the unbounded strides of the active processes lie within `BIG_STRIDE`
of each other, the wrapped strides compare in the same way, the run pool is a
heap for the unbounded ones and a pick keeps them together.
-/

open Library Library.SkewHeap BinaryTree

variable {s s' : State} {total : ℕ → ℕ} {t : BinaryTree ℕ} {p q fuel : ℕ} {A : ℕ → Prop}

/-- `BIG_STRIDE` as a number. -/
def big : ℕ := bigStride.toNat

/-- The order of the unbounded strides. -/
def byTotal (total : ℕ → ℕ) (a b : ℕ) : Bool := decide (total a < total b)

theorem byTotal_strictOrder : StrictOrder (byTotal total) := by
  constructor
  · intro x y h
    simp only [byTotal, decide_eq_true_eq, decide_eq_false_iff_not] at h ⊢
    omega
  · intro x y z h h'
    simp only [byTotal, decide_eq_false_iff_not] at h h' ⊢
    omega

/-- The strides are the unbounded ones, wrapped, and those of the given processes lie together. -/
structure Close (s : State) (total : ℕ → ℕ) (A : ℕ → Prop) : Prop where
  wraps : ∀ p, (s.proc p).lab6Stride = BitVec.ofNat 32 (total p)
  spread : ∀ p q, A p → A q → total p ≤ total q + big

theorem toInt_ofNat_sub {a b : ℕ} (h : a ≤ b + big) (h' : b ≤ a + big) :
    (BitVec.ofNat 32 a - BitVec.ofNat 32 b).toInt = (a : ℤ) - b := by
  have hb : big = 0x7FFFFFFF := rfl
  rw [BitVec.toInt_sub, BitVec.toInt_ofNat', BitVec.toInt_ofNat']
  simp only [Int.bmod_sub_bmod, Int.sub_bmod_bmod]
  have hm : ((2 ^ 32 : ℕ) : ℤ) = 4294967296 := rfl
  apply Int.bmod_eq_of_le
  · rw [hm]
    omega
  · rw [hm]
    omega

theorem Close.comp (h : Close s total A) (hp : A p) (hq : A q) :
    s.procStrideCompF p q = Int.sign (total p - total q) := by
  have hd := toInt_ofNat_sub (h.spread p q hp hq) (h.spread q p hq hp)
  rw [← h.wraps, ← h.wraps] at hd
  unfold State.procStrideCompF
  rw [hd]
  rcases lt_trichotomy (total p) (total q) with hlt | heq | hlt
  · have hn : (total p : ℤ) - total q < 0 := by omega
    rw [Int.sign_eq_neg_one_of_neg hn, if_neg (by omega), if_neg (by omega)]
  · simp [heq]
  · have hn : 0 < (total p : ℤ) - total q := by omega
    rw [Int.sign_eq_one_of_pos hn, if_pos hn]

theorem Close.less (h : Close s total A) (hp : A p) (hq : A q) :
    less s.procStrideCompF p q = byTotal total p q := by
  simp only [SkewHeap.less, byTotal, h.comp hp hq, Int.sign_eq_neg_one_iff_neg]
  congr 1
  apply propext
  omega

/-- The run pool holds the processes of the tree, ordered by their unbounded strides. -/
structure Pool (s : State) (total : ℕ → ℕ) (t : BinaryTree ℕ) : Prop where
  rep : Rep s.entries none s.runPool t
  nodup : (elems t).Nodup
  ordered : Ordered (byTotal total) t

/-- The states, strides and priorities of all processes are the same. -/
structure Same (s s' : State) : Prop where
  current : s'.current = s.current
  state : ∀ p, (s'.proc p).state = (s.proc p).state
  stride : ∀ p, (s'.proc p).lab6Stride = (s.proc p).lab6Stride
  priority : ∀ p, (s'.proc p).lab6Priority = (s.proc p).lab6Priority

theorem Same.trans {s'' : State} (h : Same s s') (h' : Same s' s'') : Same s s'' where
  current := h'.current.trans h.current
  state p := (h'.state p).trans (h.state p)
  stride p := (h'.stride p).trans (h.stride p)
  priority p := (h'.priority p).trans (h.priority p)

theorem same_of_update {x : Proc} (hc : s'.current = s.current)
    (hp : s'.proc = Function.update s.proc p x) (h₁ : x.state = (s.proc p).state)
    (h₂ : x.lab6Stride = (s.proc p).lab6Stride) (h₃ : x.lab6Priority = (s.proc p).lab6Priority) :
    Same s s' := by
  have hx : ∀ q, s'.proc q = if q = p then x else s.proc q := fun q => by
    rw [hp, Function.update_apply]
  refine ⟨hc, fun q => ?_, fun q => ?_, fun q => ?_⟩
  all_goals
    rw [hx]
    split
    · subst q
      assumption
    · rfl

theorem Same.pass (h : Same s s') (p : ℕ) : s'.pass p = s.pass p := by
  simp only [State.pass, h.priority]

theorem Close.same (h : Close s total A) (hs : Same s s') : Close s' total A :=
  ⟨fun p => (hs.stride p).trans (h.wraps p), h.spread⟩

theorem strideEnqueue_spec (h : Pool s total t) (hp : p ∉ elems t)
    (hc : Close s total fun q => q = p ∨ q ∈ elems t) (hf : t.numNodes + 1 < fuel) :
    ∃ s' t', s.strideEnqueue fuel p = some s' ∧ Pool s' total t' ∧
      (∀ q, q ∈ elems t' ↔ q = p ∨ q ∈ elems t) ∧ t'.numNodes = t.numNodes + 1 ∧ Same s s' := by
  obtain ⟨o, m', he, hr, -⟩ := skewHeapInsert_spec s.procStrideCompF h.rep h.nodup hp hf
  have hm : merge (less s.procStrideCompF) t (.node p .nil .nil) =
      merge (byTotal total) t (.node p .nil .nil) := by
    apply merge_congr
    intro x hx y hy
    exact hc.less (.inr hx) (.inl (List.mem_singleton.mp hy))
  rw [hm] at hr
  have hperm := elems_merge (byTotal total) t (.node p .nil .nil)
  have hlen := hperm.length_eq
  rw [List.length_append, length_elems, length_elems] at hlen
  refine ⟨_, _, by rw [State.strideEnqueue, he]; rfl, ⟨hr, ?_, ?_⟩, ?_, ?_, ?_⟩
  · rw [hperm.nodup_iff, List.nodup_append]
    refine ⟨h.nodup, by simp, ?_⟩
    rintro x hx y hy rfl
    exact hp (by simpa [List.mem_singleton.mp hy] using hx)
  · apply h.ordered.merge byTotal_strictOrder
    exact ⟨by simp, trivial, trivial⟩
  · intro q
    rw [mem_merge]
    simp [or_comm]
  · rw [← length_elems] at hlen ⊢
    simpa [length_elems] using hlen
  · exact same_of_update rfl rfl rfl rfl rfl

/-- The root is picked and taken out. -/
theorem dequeueNext_spec {l r : BinaryTree ℕ} (h : Pool s total (.node p l r))
    (hc : Close s total fun q => q ∈ elems (.node p l r))
    (hf : (BinaryTree.node p l r).numNodes < fuel) :
    ∃ s', s.dequeueNext fuel = some (p, s') ∧ Pool s' total (merge (byTotal total) l r) ∧
      s'.current = s.current ∧ s'.proc = Function.update s.proc p
        { s.proc p with lab6Stride := (s.proc p).lab6Stride + s.pass p } := by
  obtain ⟨hroot, hpar, hl, hr⟩ := h.rep
  set s₁ := s.setProc p { s.proc p with lab6Stride := (s.proc p).lab6Stride + s.pass p } with hs₁
  obtain ⟨o, m', he, ho, -⟩ := skewHeapRemove_spec s₁.procStrideCompF h.rep h.nodup
    List.mem_cons_self hf
  have hne : ∀ q ∈ elems l ++ elems r, q ≠ p := by
    rintro q hq rfl
    exact (List.nodup_cons.mp h.nodup).1 hq
  have hm : merge (less s₁.procStrideCompF) l r = merge (byTotal total) l r := by
    apply merge_congr
    intro x hx y hy
    have hxp := hne x (List.mem_append_left _ hx)
    have hyp := hne y (List.mem_append_right _ hy)
    have hcomp : s₁.procStrideCompF x y = s.procStrideCompF x y := by
      simp only [State.procStrideCompF, hs₁, State.setProc, Function.update_of_ne hxp,
        Function.update_of_ne hyp]
    rw [← hc.less (p := x) (q := y) (by simp [hx]) (by simp [hy])]
    simp only [SkewHeap.less, hcomp]
  rw [erase, if_pos rfl, hm] at ho
  have hperm := elems_merge (byTotal total) l r
  refine ⟨{ s₁ with runPool := o, entries := m', procNum := s₁.procNum - 1 }, ?_, ⟨ho, ?_, ?_⟩,
    rfl, rfl⟩
  · have hd : s₁.strideDequeue fuel p =
        some { s₁ with runPool := o, entries := m', procNum := s₁.procNum - 1 } := by
      rw [State.strideDequeue]
      have he' : skewHeapRemove s₁.procStrideCompF fuel s₁.entries s₁.runPool p = some (o, m') := he
      rw [he']
      rfl
    simp only [State.dequeueNext, State.stridePickNext, hroot]
    rw [← hs₁, hd]
    rfl
  · exact hperm.nodup_iff.mpr (List.nodup_cons.mp h.nodup).2
  · exact h.ordered.2.1.merge byTotal_strictOrder h.ordered.2.2

end UCore.Stride
