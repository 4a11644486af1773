import Mathlib.Algebra.Order.Group.Abs
import Mathlib.Algebra.Order.Ring.Int
import UCore.Stride.Active

/-! # Fairness of stride scheduling

A fixed set of runnable processes with equal strides is served in proportion to
their passes for ever. Processes that come and go keep the scheduler fair as
long as those that come in are close to the active ones; a new process is not,
once the others have run.
-/

namespace UCore.Stride

open Library Library.SkewHeap BinaryTree SkewHeap

variable {s s' : State} {c c' : Config} {t : BinaryTree ℕ} {p q fuel k : ℕ} {S : Finset ℕ}

/-! ## More recursion depth -/

theorem schedClassEnqueue_mono (h : s.schedClassEnqueue fuel p = some s') :
    s.schedClassEnqueue (fuel + k) p = some s' := by
  unfold State.schedClassEnqueue at h ⊢
  split at h
  · rw [if_pos ‹_›]
    obtain ⟨o, ho, rfl⟩ := Option.map_eq_some_iff.mp h
    exact Option.map_eq_some_iff.mpr ⟨o, skewHeapInsert_mono ho, rfl⟩
  · rw [if_neg ‹_›]
    exact h

theorem wakeupProc_mono (h : s.wakeupProc fuel p = some s') :
    s.wakeupProc (fuel + k) p = some s' := by
  simp only [State.wakeupProc] at h ⊢
  split_ifs at h ⊢
  · exact schedClassEnqueue_mono h
  · exact h
  · exact h

theorem schedule_mono (h : s.schedule fuel = some s') : s.schedule (fuel + k) = some s' := by
  obtain ⟨s₁, h₁, h₂⟩ := Option.bind_eq_some_iff.mp h
  refine Option.bind_eq_some_iff.mpr ⟨s₁, ?_, ?_⟩
  · unfold State.enqueueCurrent at h₁ ⊢
    split_ifs at h₁ ⊢
    · exact schedClassEnqueue_mono h₁
    · exact h₁
  · obtain ⟨o, ho, rfl⟩ := Option.map_eq_some_iff.mp h₂
    refine Option.map_eq_some_iff.mpr ⟨o, ?_, rfl⟩
    cases hr : s₁.runPool with
    | none => simpa [State.dequeueNext, State.stridePickNext, hr] using ho
    | some r =>
      simp only [State.dequeueNext, State.stridePickNext, hr] at ho ⊢
      obtain ⟨s₂, hs₂, rfl⟩ := Option.map_eq_some_iff.mp ho
      obtain ⟨m, hm, rfl⟩ := Option.map_eq_some_iff.mp hs₂
      exact Option.map_eq_some_iff.mpr
        ⟨_, Option.map_eq_some_iff.mpr ⟨m, skewHeapRemove_mono hm, rfl⟩, rfl⟩

theorem call_mono {e : Event} (h : c.call fuel e = some c') : c.call (fuel + k) e = some c' := by
  cases e with
  | schedule =>
    obtain ⟨s, hs, rfl⟩ := Option.map_eq_some_iff.mp h
    exact Option.map_eq_some_iff.mpr ⟨s, schedule_mono hs, rfl⟩
  | fork p =>
    obtain ⟨s, hs, rfl⟩ := Option.map_eq_some_iff.mp h
    exact Option.map_eq_some_iff.mpr ⟨s, wakeupProc_mono hs, rfl⟩
  | wakeup p =>
    obtain ⟨s, hs, rfl⟩ := Option.map_eq_some_iff.mp h
    exact Option.map_eq_some_iff.mpr ⟨s, wakeupProc_mono hs, rfl⟩
  | block st => exact h
  | setPriority v => exact h
  | tick => exact h

theorem Inv.schedules (h : Inv c t) (he : c.call fuel .schedule = some c') :
    ∃ t', Inv c' t' ∧ Schedules (Active c.state) c c' := by
  have hf : t.numNodes + 1 < fuel + (t.numNodes + 2) := by omega
  obtain ⟨c₁, t', he', h', hs⟩ := h.schedule hf
  obtain rfl : c₁ = c' := Option.some.inj (he'.symm.trans (call_mono he))
  exact ⟨t', h', hs⟩

/-! ## A fixed set of processes -/

/-- The processes of `S` are runnable with equal strides, those that do not run in the pool. -/
structure Start (S : Finset ℕ) (s : State) : Prop where
  pool : ∃ t, Rep s.entries none s.runPool t ∧ (elems t).Nodup ∧
    ∀ p, p ∈ elems t ↔ p ∈ S ∧ p ≠ s.current
  current : s.current ∈ S ∨ s.current = idleproc
  idle : idleproc ∉ S
  runnable : ∀ p ∈ S, (s.proc p).state = .runnable
  equal : ∀ p ∈ S, ∀ q ∈ S, (s.proc p).lab6Stride = (s.proc q).lab6Stride

/-- What a run of `schedule` calls keeps: the active processes, their priorities, and the strides as
multiples of the passes. -/
structure Served (S : Finset ℕ) (s : State) (c : Config) : Prop where
  inv : ∃ t, Inv c t
  active : ∀ p, Active c.state p ↔ p ∈ S
  priority : ∀ p, (c.state.proc p).lab6Priority = (s.proc p).lab6Priority
  total : ∀ p, c.total p = (s.proc p).lab6Stride.toNat + c.picks p * (s.pass p).toNat

theorem Start.served (h : Start S s) : Served S s (Config.start s) := by
  obtain ⟨t, hr, hn, hm⟩ := h.pool
  have hi : ∀ p, InPool s p ↔ p ∈ elems t := by
    intro p
    constructor
    · rintro ⟨t', hr', hp⟩
      rwa [hr.unique hr']
    · exact fun hp => ⟨t, hr, hp⟩
  have ha : ∀ p, Active s p ↔ p ∈ S := by
    intro p
    rw [Active, hi, hm]
    constructor
    · rintro (⟨hp, -⟩ | ⟨rfl, hp, -⟩)
      · exact hp
      · exact h.current.resolve_right hp
    · intro hp
      by_cases hc : p = s.current
      · exact .inr ⟨hc, fun he => h.idle (he ▸ hp), h.runnable p hp⟩
      · exact .inl ⟨hp, hc⟩
  have he : ∀ p ∈ S, ∀ q ∈ S, (Config.start s).total p = (Config.start s).total q :=
    fun p hp q hq => congrArg BitVec.toNat (h.equal p hp q hq)
  have hsub : ∀ p ∈ elems t, p ∈ S := fun p hp => ((hm p).mp hp).1
  have ho : ∀ u : BinaryTree ℕ, (∀ p ∈ elems u, p ∈ S) →
      Ordered (byTotal (Config.start s).total) u := by
    intro u hu
    induction u with
    | nil => trivial
    | node x l r hl hr =>
      refine ⟨?_, hl fun p hp => hu p (by simp [hp]), hr fun p hp => hu p (by simp [hp])⟩
      intro y hy
      have heq := he y (hu y (List.mem_cons_of_mem x hy)) x (hu x List.mem_cons_self)
      simp [byTotal, heq]
  refine ⟨⟨t, ⟨hr, hn, ho t hsub⟩, ?_, ?_, ?_⟩, ha, fun _ => rfl, ?_⟩
  · intro p hp
    obtain ⟨hpS, hpc⟩ := (hm p).mp hp
    exact ⟨fun he => h.idle (he ▸ hpS), hpc, h.runnable p hpS⟩
  · intro p
    simp [Config.start]
  · intro p q hp hq
    rw [he p ((ha p).mp hp) q ((ha q).mp hq)]
    exact Nat.le_add_right _ _
  · intro p
    simp [Config.start]

theorem Served.schedule (h : Served S s c) (he : c.call fuel .schedule = some c') :
    Served S s c' := by
  obtain ⟨t, hi⟩ := h.inv
  obtain ⟨t', hi', hs⟩ := hi.schedules he
  refine ⟨⟨t', hi'⟩, fun p => (hs.active p).trans (h.active p),
    fun p => (hs.priority p).trans (h.priority p), ?_⟩
  intro p
  rcases hs.choice with ⟨-, -, ht, hk⟩ | ⟨-, -, -, ht, hk⟩
  · rw [ht, hk]
    exact h.total p
  · rw [ht, hk]
    by_cases hp : p = c'.state.current
    · subst hp
      have hpass : c.state.pass c'.state.current = s.pass c'.state.current := by
        simp only [State.pass, h.priority]
      simp only [Function.update_self]
      rw [h.total, hpass, add_mul, one_mul, add_assoc]
    · simp only [Function.update_of_ne hp]
      exact h.total p

/-- The processes of `S` are compared and served by their unbounded strides. -/
structure Proportional (S : Finset ℕ) (s : State) (c : Config) : Prop where
  comp : ∀ p ∈ S, ∀ q ∈ S, c.state.procStrideCompF p q = Int.sign (c.total p - c.total q)
  spread : ∀ p ∈ S, ∀ q ∈ S, c.total p ≤ c.total q + big
  total : ∀ p ∈ S, c.total p = (s.proc p).lab6Stride.toNat + c.picks p * (s.pass p).toNat
  share : ∀ p ∈ S, ∀ q ∈ S,
    |(c.picks p * (s.pass p).toNat : ℤ) - c.picks q * (s.pass q).toNat| ≤ big
  ends : ∃ fuel, (c.call fuel .schedule).isSome
  least : ∀ fuel c', c.call fuel .schedule = some c' → S.Nonempty →
    c'.state.current ∈ S ∧ ∀ p ∈ S, c.total c'.state.current ≤ c.total p

theorem Served.proportional (h : Served S s c) (hs : Start S s) : Proportional S s c := by
  obtain ⟨t, hi⟩ := h.inv
  have ha : ∀ p ∈ S, Active c.state p := fun p hp => (h.active p).mpr hp
  constructor
  · exact fun p hp q hq => hi.close.comp (ha p hp) (ha q hq)
  · exact fun p hp q hq => hi.close.spread p q (ha p hp) (ha q hq)
  · exact fun p _ => h.total p
  · intro p hp q hq
    have h₁ := hi.close.spread p q (ha p hp) (ha q hq)
    have h₂ := hi.close.spread q p (ha q hq) (ha p hp)
    rw [h.total, h.total, hs.equal p hp q hq] at h₁ h₂
    rw [← Nat.cast_mul, ← Nat.cast_mul, abs_le]
    omega
  · obtain ⟨c', t', he, -, -⟩ := hi.schedule (Nat.lt_succ_self _)
    exact ⟨_, by rw [he]; rfl⟩
  · intro fuel c' he hne
    obtain ⟨t', -, hsc⟩ := hi.schedules he
    obtain ⟨r, hr⟩ := hne
    rcases hsc.choice with ⟨-, hn, -, -⟩ | ⟨-, hc, hl, -, -⟩
    · exact absurd (ha r hr) (hn r)
    · exact ⟨(h.active _).mp hc, fun p hp => hl p (ha p hp)⟩

/-- For a fixed set of runnable processes with equal strides, every number of calls of `schedule`
leaves the wrapped strides in the order of the unbounded ones, and shares the processor by the
passes. -/
theorem stride_proportional (S : Finset ℕ) (s : State) (h : Start S s) (events : List Event)
    (c : Config) (hr : Runs (fun c e c' => e = .schedule ∧ ∃ fuel, c.call fuel e = some c')
      (Config.start s) events c) : Proportional S s c := by
  have hserved : Served S s c := by
    apply hr.invariant (P := Served S s)
    · rintro c e c' hc ⟨rfl, fuel, he⟩
      exact hc.schedule he
    · exact h.served
  exact hserved.proportional h

/-- Process 1 runs and process 2 waits. -/
def twoProcs : State where
  proc _ := ⟨.runnable, 0, false, 0, 5, true, 0, 3⟩
  entries := ⟨fun _ => none, fun _ => none, fun _ => none⟩
  runPool := some 2
  procNum := 1
  maxTimeSlice := 5
  current := 1

theorem stride_proportional_twoProcs : Start {1, 2} twoProcs ∧ ∃ c,
    Runs (fun c e c' => e = .schedule ∧ ∃ fuel, c.call fuel e = some c') (Config.start twoProcs)
      (List.replicate 5 .schedule) c ∧
    c.picks 1 = 3 ∧ c.picks 2 = 2 ∧ Proportional {1, 2} twoProcs c := by
  have h : Start {1, 2} twoProcs := by
    refine ⟨⟨.node 2 .nil .nil, ⟨rfl, rfl, rfl, rfl⟩, by simp, ?_⟩, by decide, by decide,
      fun _ _ => rfl, fun _ _ _ _ => rfl⟩
    intro p
    simp [twoProcs]
    omega
  have hc : ((List.replicate 5 Event.schedule).foldlM
      (fun (c : Config) e => if e = .schedule then c.call 9 e else none)
      (Config.start twoProcs)).map (fun c => (c.picks 1, c.picks 2)) = some (3, 2) := by
    decide +kernel
  obtain ⟨c, hr, hl⟩ := Option.map_eq_some_iff.mp hc
  obtain ⟨h₁, h₂⟩ := Prod.mk.inj hl
  have hruns := (Runs.of_guard hr).mono
    (g := fun c e c' => e = .schedule ∧ ∃ fuel, c.call fuel e = some c')
    fun _ _ _ h => ⟨h.1, 9, h.2⟩
  exact ⟨h, c, hruns, h₁, h₂, stride_proportional _ _ h _ c hruns⟩

/-! ## Processes that come and go -/

/-- The condition on the state before an event: a process that comes in is close to the active
ones. -/
def Near (c : Config) : Event → Prop
  | .fork _ => NearActive c 0
  | .wakeup p => NearActive c (c.total p)
  | .schedule | .block _ | .setPriority _ | .tick => True

theorem Inv.event (h : Inv c t) {e : Event} (ha : c.Allowed e) (hn : Near c e)
    (hf : t.numNodes + 1 < fuel) : ∃ c' t', c.call fuel e = some c' ∧ Inv c' t' := by
  cases e with
  | schedule =>
    obtain ⟨c', t', he, hi, -⟩ := h.schedule hf
    exact ⟨c', t', he, hi⟩
  | fork p =>
    obtain ⟨hp, hc, hst⟩ := ha
    obtain ⟨hi, hact⟩ := h.alloc hc hst
    have hs : ((c.state.allocProc p).proc p).state = .uninit := by
      simp [State.allocProc, State.setProc]
    obtain ⟨s', t', he, hi'⟩ := hi.wakeup hp (.inr hs) (fun q hq => by
      obtain ⟨hqp, hq⟩ := hact q hq
      simpa [hqp] using hn q hq) hf
    exact ⟨_, t', Option.map_eq_some_iff.mpr ⟨s', he, rfl⟩, hi'⟩
  | wakeup p =>
    obtain ⟨s', t', he, hi'⟩ := h.wakeup ha.1 (.inl ha.2) hn hf
    exact ⟨_, t', Option.map_eq_some_iff.mpr ⟨s', he, rfl⟩, hi'⟩
  | block st =>
    refine ⟨_, t, rfl, h.update (.inr ?_) rfl⟩
    rcases ha.2 with rfl | rfl
    · exact fun he => ProcState.noConfusion he
    · exact fun he => ProcState.noConfusion he
  | setPriority v => exact ⟨_, t, rfl, h.update (.inl rfl) rfl⟩
  | tick =>
    refine ⟨_, t, rfl, ?_⟩
    simp only [State.schedClassProcTick]
    split
    · exact h.update (.inl rfl) rfl
    · exact h.update (.inl rfl) rfl

theorem Inv.step (h : Inv c t) {e : Event} (ha : c.Allowed e) (hn : Near c e)
    (he : c.call fuel e = some c') : ∃ t', Inv c' t' := by
  have hf : t.numNodes + 1 < fuel + (t.numNodes + 2) := by omega
  obtain ⟨c₁, t', he', h'⟩ := h.event ha hn hf
  obtain rfl : c₁ = c' := Option.some.inj (he'.symm.trans (call_mono he))
  exact ⟨t', h'⟩

/-- The run pool is compared and picked from by the unbounded strides. -/
structure Fair (c : Config) : Prop where
  spread : ∀ p q, InPool c.state p → InPool c.state q → c.total p ≤ c.total q + big
  comp : ∀ p q, InPool c.state p → InPool c.state q →
    c.state.procStrideCompF p q = Int.sign (c.total p - c.total q)
  pick : ∀ p s, c.state.stridePickNext = (some p, s) →
    InPool c.state p ∧ ∀ q, InPool c.state q → c.total p ≤ c.total q
  schedule : ∀ fuel c', c.call fuel .schedule = some c' → c'.state.current ≠ idleproc →
    Active c.state c'.state.current ∧ ∀ q, Active c.state q → c.total c'.state.current ≤ c.total q

theorem Inv.fair (h : Inv c t) : Fair c := by
  constructor
  · exact fun p q hp hq => h.close.spread p q (.inl hp) (.inl hq)
  · exact fun p q hp hq => h.close.comp (.inl hp) (.inl hq)
  · intro p s hs
    have hroot : c.state.runPool = some p := by
      cases hr : c.state.runPool with
      | none => simp [State.stridePickNext, hr] at hs
      | some r =>
        simp only [State.stridePickNext, hr, Prod.mk.injEq] at hs
        exact hs.1
    have hrep := h.pool.rep
    rw [hroot] at hrep
    refine ⟨h.pool.inPool_iff.mpr hrep.root_mem, ?_⟩
    intro q hq
    have hq' := h.pool.inPool_iff.mp hq
    have hord := h.pool.ordered
    cases t with
    | nil => exact absurd hq' List.not_mem_nil
    | node x l r =>
      obtain rfl : p = x := Option.some.inj hrep.1
      rcases List.mem_cons.mp hq' with rfl | hq'
      · exact le_rfl
      · simpa [byTotal] using hord.1 q hq'
  · intro fuel c' he hc
    obtain ⟨t', -, hs⟩ := h.schedules he
    rcases hs.choice with ⟨hn, -⟩ | ⟨-, ha, hl, -⟩
    · exact absurd hn hc
    · exact ⟨ha, hl⟩

theorem boot_inv (s : State) : Inv (Config.start (boot s)) .nil := by
  have hp : Pool (boot s) (Config.start (boot s)).total .nil := ⟨rfl, List.nodup_nil, trivial⟩
  refine ⟨hp, by simp, ?_, ?_⟩
  · intro p
    simp [Config.start]
  · rintro p q (hq | ⟨hq, hi, -⟩)
    · exact absurd (hp.inPool_iff.mp hq) List.not_mem_nil
    · exact absurd hq hi

/-- In every run from the start of the system whose forks and wakeups bring in processes that are
close to the active ones, the run pool is fair in every state and every event ends. -/
theorem stride_fair (s : State) (events : List Event) (c : Config)
    (hr : Runs (fun c e c' => c.Allowed e ∧ Near c e ∧ ∃ fuel, c.call fuel e = some c')
      (Config.start (boot s)) events c) :
    Fair c ∧ ∀ e, c.Allowed e → Near c e → ∃ fuel, (c.call fuel e).isSome := by
  obtain ⟨t, h⟩ : ∃ t, Inv c t := by
    apply hr.invariant (P := fun c => ∃ t, Inv c t)
    · rintro c e c' ⟨t, h⟩ ⟨ha, hn, fuel, he⟩
      exact h.step ha hn he
    · exact ⟨.nil, boot_inv s⟩
  refine ⟨h.fair, ?_⟩
  intro e ha hn
  obtain ⟨c', t', he, -⟩ := h.event ha hn (Nat.lt_succ_self _)
  exact ⟨_, by rw [he]; rfl⟩

/-- A machine before the start of the system. -/
def blank : State where
  proc _ := ⟨.uninit, 0, false, 0, 0, false, 0, 0⟩
  entries := ⟨fun _ => none, fun _ => none, fun _ => none⟩
  runPool := none
  procNum := 0
  maxTimeSlice := 0
  current := 0

/-- A run pool is read off its root. -/
def decideRep (m : Entries) : ∀ (par root : Option ℕ) (t : BinaryTree ℕ),
    Decidable (Rep m par root t)
  | _, root, .nil => inferInstanceAs (Decidable (root = none))
  | par, root, .node x l r =>
    have := decideRep m (some x) (m.left x) l
    have := decideRep m (some x) (m.right x) r
    inferInstanceAs (Decidable (root = some x ∧ m.parent x = par ∧ Rep m (some x) (m.left x) l ∧
      Rep m (some x) (m.right x) r))

instance (m : Entries) (par root : Option ℕ) (t : BinaryTree ℕ) : Decidable (Rep m par root t) :=
  decideRep m par root t

/-- The pool is the tree `t`, and the process is close to its elements and to the current one. -/
def NearTree (c : Config) (t : BinaryTree ℕ) (n : ℕ) : Prop :=
  Rep c.state.entries none c.state.runPool t ∧
    ∀ q ∈ c.state.current :: elems t, n ≤ c.total q + big ∧ c.total q ≤ n + big

instance (c : Config) (t : BinaryTree ℕ) (n : ℕ) : Decidable (NearTree c t n) :=
  inferInstanceAs (Decidable (_ ∧ _))

theorem NearTree.nearActive (h : NearTree c t k) : NearActive c k := by
  rintro q (⟨t', ht', hq⟩ | ⟨rfl, -⟩)
  · obtain rfl := ht'.unique h.1
    exact h.2 q (List.mem_cons_of_mem _ hq)
  · exact h.2 _ List.mem_cons_self

/-- Two processes are forked and run, and one of them sleeps in between. -/
def comeAndGo : List Event :=
  [.fork 1, .fork 2, .schedule, .block .sleeping, .schedule, .wakeup 2, .schedule]

/-- The run pool before each event of `comeAndGo` that brings in a process. -/
def comeAndGoPool : Event → BinaryTree ℕ
  | .fork 2 => .node 1 .nil .nil
  | _ => .nil

def comeAndGoNear (c : Config) : Event → Prop
  | .fork p => NearTree c (comeAndGoPool (.fork p)) 0
  | .wakeup p => NearTree c (comeAndGoPool (.wakeup p)) (c.total p)
  | .schedule | .block _ | .setPriority _ | .tick => True

instance (c : Config) : DecidablePred (comeAndGoNear c)
  | .fork _ | .wakeup _ => inferInstanceAs (Decidable (NearTree _ _ _))
  | .schedule | .block _ | .setPriority _ | .tick => .isTrue trivial

theorem comeAndGoNear_near {e : Event} (h : comeAndGoNear c e) : Near c e := by
  cases e with
  | fork p => exact NearTree.nearActive h
  | wakeup p => exact NearTree.nearActive h
  | _ => trivial

theorem stride_fair_blank : ∃ c,
    Runs (fun c e c' => c.Allowed e ∧ Near c e ∧ ∃ fuel, c.call fuel e = some c')
      (Config.start (boot blank)) comeAndGo c ∧
    InPool c.state 2 ∧ c.total 1 = 2 * big ∧ c.total 2 = big ∧ Fair c := by
  have hc : (comeAndGo.foldlM (fun (c : Config) e =>
        if c.Allowed e ∧ comeAndGoNear c e then c.call 9 e else none)
      (Config.start (boot blank))).map (fun c =>
        (decide (Rep c.state.entries none c.state.runPool (.node 2 .nil .nil)), c.total 1,
          c.total 2)) =
      some (true, 2 * big, big) := by
    decide +kernel
  obtain ⟨c, hr, hl⟩ := Option.map_eq_some_iff.mp hc
  simp only [Prod.mk.injEq, decide_eq_true_eq] at hl
  have hrun : Runs (fun c e c' => c.Allowed e ∧ Near c e ∧ ∃ fuel, c.call fuel e = some c')
      (Config.start (boot blank)) comeAndGo c := by
    refine (Runs.of_guard hr).mono fun c e c' ⟨⟨ha, hn⟩, he⟩ => ?_
    exact ⟨ha, comeAndGoNear_near hn, 9, he⟩
  exact ⟨c, hrun, ⟨_, hl.1, by simp⟩, hl.2.1, hl.2.2, (stride_fair blank _ c hrun).1⟩

/-- One process runs twice before two others are forked, and twice more. -/
def lateForks : List Event :=
  [.fork 1, .schedule, .schedule, .fork 2, .fork 3, .schedule, .schedule]

/-- New processes start with stride zero: after a process has run they are too far behind it. -/
theorem stride_late_forks :
    ∃ c, Runs (fun c e c' => c.Allowed e ∧ ∃ fuel, c.call fuel e = some c')
        (Config.start (boot blank)) lateForks c ∧
      InPool c.state 1 ∧ InPool c.state 2 ∧ c.total 2 + big < c.total 1 ∧ ¬ Fair c := by
  have hc : (lateForks.foldlM (fun (c : Config) e => if c.Allowed e then c.call 9 e else none)
      (Config.start (boot blank))).map (fun c => ([c.state.runPool, c.state.entries.parent 2,
        c.state.entries.left 2, c.state.entries.right 2, c.state.entries.parent 1,
        c.state.entries.left 1, c.state.entries.right 1], [c.total 1, c.total 2])) =
      some ([some 2, none, some 1, none, some 2, none, none], [3 * big, 0]) := by
    decide +kernel
  obtain ⟨c, hr, hl⟩ := Option.map_eq_some_iff.mp hc
  simp only [Prod.mk.injEq, List.cons.injEq, and_true] at hl
  obtain ⟨⟨hroot, hp₂, hl₂, hr₂, hp₁, hl₁, hr₁⟩, ht₁, ht₂⟩ := hl
  have hrep : Rep c.state.entries none c.state.runPool (.node 2 (.node 1 .nil .nil) .nil) :=
    ⟨hroot, hp₂, ⟨hl₂, hp₁, hl₁, hr₁⟩, hr₂⟩
  have h₁ : InPool c.state 1 := ⟨_, hrep, by simp⟩
  have h₂ : InPool c.state 2 := ⟨_, hrep, by simp⟩
  have hlt : c.total 2 + big < c.total 1 := by
    rw [ht₁, ht₂]
    decide
  refine ⟨c, ?_, h₁, h₂, hlt, ?_⟩
  · exact (Runs.of_guard hr).mono fun _ _ _ h => ⟨h.1, 9, h.2⟩
  · intro hf
    have := hf.spread 1 2 h₁ h₂
    omega

end UCore.Stride
