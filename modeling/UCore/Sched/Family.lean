import UCore.Sched.Fairness

/-! # The process tree

From every process the chain of parents leads to `idleproc`. The chain goes through live processes:
the children of a process that exits are given to `initproc`, which never exits.
-/

namespace UCore.Sched

open Library State

/-- The chain of parents from the process leads to `idleproc`. -/
inductive Descends (s : State) : ℕ → Prop
  | idle : Descends s idleproc
  | child {p : ℕ} : Descends s (s.proc p).parent → Descends s p

/-- No process is new or has another parent than before. -/
structure Kin (s t : State) : Prop where
  parent : ∀ p, (t.proc p).parent = (s.proc p).parent
  procs : t.procs ⊆ s.procs

namespace Kin

variable {s t u : State} {p : ℕ} {x : Proc}

theorem refl (s : State) : Kin s s := ⟨fun _ => rfl, Finset.Subset.refl _⟩

theorem trans (h : Kin s t) (h' : Kin t u) : Kin s u :=
  ⟨fun p => (h'.parent p).trans (h.parent p), h'.procs.trans h.procs⟩

theorem of_update (hp : t.proc = Function.update s.proc p x) (hx : x.parent = (s.proc p).parent)
    (ht : t.procs = s.procs) : Kin s t := by
  refine ⟨fun r => ?_, ht.subset⟩
  rw [hp, Function.update_apply]
  split
  · rename_i h
    rw [h, hx]
  · rfl

theorem setProc (hx : x.parent = (s.proc p).parent) : Kin s (s.setProc p x) := of_update rfl hx rfl

theorem rrEnqueue (h : s.rrEnqueue p = .ok t) : Kin s t := by
  unfold State.rrEnqueue at h
  split at h
  · cases h
  split at h
  · cases h
  obtain rfl := Except.ok.inj h
  exact of_update rfl rfl rfl

theorem schedClassEnqueue (h : s.schedClassEnqueue p = .ok t) : Kin s t := by
  unfold State.schedClassEnqueue at h
  split at h
  · exact rrEnqueue h
  · cases h
    exact refl s

theorem wakeupProc (h : s.wakeupProc p = .ok t) : Kin s t := by
  unfold State.wakeupProc at h
  split at h
  · cases h
  split at h
  · have k : Kin s (s.setProc p { s.proc p with state := .runnable, waitState := 0 }) := setProc rfl
    dsimp only at h
    split at h
    · exact k.trans (schedClassEnqueue h)
    · cases h
      exact k
  · cases h
    exact refl s

theorem wakeupProcs {ps : List ℕ} (h : State.wakeupProcs s ps = .ok t) : Kin s t := by
  induction ps generalizing s with
  | nil =>
    cases h
    exact refl _
  | cons p ps ih =>
    obtain ⟨u, hu, ht⟩ := bind_eq_ok.mp h
    exact (wakeupProc hu).trans (ih ht)

theorem tick {expired : List ℕ} (h : s.runTimerList expired = .ok t) : Kin s t := by
  obtain ⟨u, hu, ht⟩ := bind_eq_ok.mp h
  obtain rfl := Except.ok.inj ht
  refine (wakeupProcs hu).trans ?_
  unfold schedClassProcTick rrProcTick
  split <;> exact setProc rfl

theorem doKill {pid : ℕ} (h : (s.doKill pid).map Prod.snd = .ok t) : Kin s t := by
  unfold State.doKill at h
  split at h
  · cases h
    exact refl s
  rename_i p _
  split at h
  · have k : Kin s (s.setProc p { s.proc p with flags := (s.proc p).flags ||| pfExiting }) :=
      setProc rfl
    dsimp only at h
    split at h
    · cases hw : State.wakeupProc (s.setProc p
          { s.proc p with flags := (s.proc p).flags ||| pfExiting }) p with
      | error e =>
        rw [hw] at h
        cases h
      | ok u =>
        rw [hw] at h
        cases h
        exact k.trans (wakeupProc hw)
    · cases h
      exact k
  · cases h
    exact refl s

theorem schedule (h : s.schedule = .ok t) : Kin s t := by
  obtain ⟨u, hu, ht⟩ := bind_eq_ok.mp h
  obtain ⟨⟨n, v⟩, hv, ht⟩ := bind_eq_ok.mp ht
  obtain rfl := Except.ok.inj ht
  have h₁ : Kin s u := by
    have k : Kin s (s.setProc s.current { s.proc s.current with needResched := false }) :=
      setProc rfl
    unfold State.enqueueCurrent at hu
    split at hu
    · exact k.trans (schedClassEnqueue hu)
    · cases hu
      exact k
  have h₂ : Kin u v := by
    unfold State.dequeueNext at hv
    split at hv
    · rename_i m _
      unfold State.rrDequeue at hv
      split at hv
      · cases hv
      split at hv
      · cases hv
      obtain ⟨-, rfl⟩ := Prod.mk.inj (Except.ok.inj hv)
      exact of_update rfl rfl rfl
    · obtain ⟨-, rfl⟩ := Prod.mk.inj (Except.ok.inj hv)
      exact refl _
  rw [Inv.procRun_eq]
  have h₃ : Kin v { v.setProc n { v.proc n with runs := (v.proc n).runs + 1 } with current := n } :=
    of_update rfl rfl rfl
  exact (h₁.trans h₂).trans h₃

end Kin

/-- All processes descend from `idleproc`, and `initproc` is its child. -/
structure Family (s : State) : Prop where
  init : (s.proc initproc).parent = idleproc
  root : ∀ p ∈ s.procs, Descends s p

namespace Family

variable {s t : State} {q : List ℕ} {p : ℕ}

theorem kin (f : Family s) (k : Kin s t) : Family t := by
  have hd : ∀ p, Descends s p → Descends t p := by
    intro p h
    induction h with
    | idle => exact .idle
    | child _ ih =>
      refine .child ?_
      rw [k.parent]
      exact ih
  exact ⟨(k.parent initproc).trans f.init, fun p h => hd p (f.root p (k.procs h))⟩

theorem adopt (f : Family s) (hp : p ≠ initproc) :
    Family (s.setProc p { s.proc p with parent := initproc }) := by
  have hpar : ∀ r, ((s.setProc p { s.proc p with parent := initproc }).proc r).parent =
      if r = p then initproc else (s.proc r).parent := by
    intro r
    rw [setProc_proc]
    split <;> simp [*]
  have hinit : ((s.setProc p { s.proc p with parent := initproc }).proc initproc).parent =
      idleproc := by
    rw [hpar, if_neg (Ne.symm hp)]
    exact f.init
  refine ⟨hinit, fun r hr => ?_⟩
  have hd := f.root r hr
  clear hr
  induction hd with
  | idle => exact .idle
  | @child r _ ih =>
    refine .child ?_
    rw [hpar]
    split
    · refine .child ?_
      rw [hinit]
      exact .idle
    · exact ih

theorem reparent {l : List ℕ} (f : Family s) (hl : initproc ∉ l) (h : s.reparent l = .ok t) :
    Family t := by
  induction l generalizing s with
  | nil =>
    cases h
    exact f
  | cons p l ih =>
    simp only [List.mem_cons, not_or] at hl
    have f' := f.adopt (Ne.symm hl.1)
    unfold State.reparent at h
    dsimp only at h
    split at h
    · obtain ⟨u, hu, ht⟩ := bind_eq_ok.mp h
      exact ih (f'.kin (Kin.wakeupProc hu)) hl.2 ht
    · exact ih f' hl.2 h

theorem exit {l : List ℕ} (f : Family s) (hi : s.current ≠ idleproc)
    (hl : ∀ p ∈ l, (s.proc p).parent = s.current) (h : s.doExit l = .ok t) : Family t := by
  have hinit : initproc ∉ l := fun hm => hi ((hl _ hm).symm.trans f.init)
  have k : Kin s (s.setProc s.current { s.proc s.current with state := .zombie }) := Kin.setProc rfl
  unfold doExit at h
  dsimp only at h
  split at h
  · obtain ⟨u, hu, ht⟩ := bind_eq_ok.mp h
    exact (f.kin (k.trans (Kin.wakeupProc hu))).reparent hinit ht
  · exact (f.kin k).reparent hinit h

theorem fork (f : Family s) (k : Inv s q []) (hp : p ∉ s.procs) (h : s.doFork p = .ok t) :
    Family t := by
  unfold doFork at h
  split at h
  · cases h
    exact f
  split at h
  · cases h
  dsimp only at h
  refine kin ?_ (Kin.wakeupProc h)
  have hpar : ∀ r ∈ s.procs, (((s.allocProc p).setProc p
      { (s.allocProc p).proc p with parent := s.current }).proc r).parent = (s.proc r).parent := by
    intro r hr
    have hne : r ≠ p := fun he => hp (he ▸ hr)
    simp [allocProc, setProc_proc, hne]
  have hd : ∀ r, Descends s r → r ∈ s.procs → Descends ((s.allocProc p).setProc p
      { (s.allocProc p).proc p with parent := s.current }) r := by
    intro r h
    induction h with
    | idle => exact fun _ => .idle
    | @child r _ ih =>
      intro hr
      refine .child ?_
      rw [hpar r hr]
      exact ih (k.tree.parent r hr)
  refine ⟨(hpar _ k.tree.init).trans f.init, fun r hr => ?_⟩
  rcases Finset.mem_insert.mp hr with rfl | hr
  · refine .child ?_
    simp only [setProc_proc, if_true]
    exact hd _ (f.root _ k.tree.current) k.tree.current
  · exact hd r (f.root r hr) hr

theorem step {op : Op} (f : Family s) (k : Inv s q []) (he : s.Enabled op) (h : s.exec op = .ok t) :
    Family t := by
  cases op with
  | fork child => exact f.fork k he.2 h
  | wakeup p => exact f.kin (Kin.wakeupProc h)
  | schedule => exact f.kin (Kin.schedule h)
  | tick expired => exact f.kin (Kin.tick h)
  | sleep w =>
    obtain rfl := Except.ok.inj h
    exact f.kin (Kin.setProc rfl)
  | yield =>
    obtain rfl := Except.ok.inj h
    exact f.kin (Kin.setProc rfl)
  | kill pid => exact f.kin (Kin.doKill h)
  | exit children =>
    obtain ⟨-, hi, -, hc⟩ := he
    exact f.exit hi (fun p hp => ((hc p).mp hp).2) h
  | wait child =>
    obtain rfl := Except.ok.inj h
    exact f.kin ⟨fun _ => rfl, Finset.erase_subset _ _⟩

theorem boot (h : procInit = .ok s) : Family s := by
  obtain rfl := Except.ok.inj h
  have hi : ∀ s : State, (s.proc initproc).parent = idleproc → Descends s initproc := by
    intro s h
    refine .child ?_
    rw [h]
    exact .idle
  refine ⟨rfl, fun p hp => ?_⟩
  obtain rfl | rfl : p = initproc ∨ p = idleproc :=
    (Finset.mem_insert.mp hp).imp_right Finset.mem_singleton.mp
  · exact hi _ rfl
  · exact .idle

end Family

/-- In every reachable state the parents are live processes, `initproc` is one of them, and every
process descends from `idleproc`. -/
theorem family_rooted :
    ∃ s₀, procInit = .ok s₀ ∧ ∀ ops s,
      Runs (fun s op t => s.Enabled op ∧ s.exec op = .ok t) s₀ ops s →
        initproc ∈ s.procs ∧ (s.proc initproc).state ≠ .zombie ∧
        ∀ p ∈ s.procs, Descends s p ∧ (s.proc p).parent ∈ s.procs ∧
          (s.proc (s.proc p).parent).state ≠ .zombie := by
  obtain ⟨s₀, h₀, k₀⟩ := Inv.boot
  refine ⟨s₀, h₀, fun ops s hr => ?_⟩
  obtain ⟨⟨q, k⟩, f⟩ : (∃ q, Inv s q []) ∧ Family s := by
    refine hr.invariant (P := fun s => (∃ q, Inv s q []) ∧ Family s) ?_ ⟨⟨_, k₀⟩, .boot h₀⟩
    rintro s op t ⟨⟨q, k⟩, f⟩ ⟨he, ht⟩
    have := k.step he
    rw [ht] at this
    exact ⟨this, f.step k he ht⟩
  refine ⟨k.tree.init, k.tree.alive, fun p hp => ⟨f.root p hp, k.tree.parent p hp, fun hz => ?_⟩⟩
  exact k.tree.childless _ (k.tree.parent p hp) hz p hp List.not_mem_nil rfl

/-- A child of `initproc`. -/
theorem family_rooted_child :
    ∃ s₀ s, procInit = .ok s₀ ∧
      Runs (fun s op t => s.Enabled op ∧ s.exec op = .ok t) s₀ [.schedule, .fork 2, .schedule] s ∧
      s.current = 2 ∧ (s.proc 2).parent = initproc ∧ Descends s 2 := by
  obtain ⟨s₀, h₀, h⟩ := family_rooted
  have hr : ∃ s, Runs (fun s op t => s.Enabled op ∧ s.exec op = .ok t) s₀
      [.schedule, .fork 2, .schedule] s ∧ s.current = 2 ∧ (s.proc 2).parent = initproc ∧
      2 ∈ s.procs := by
    obtain rfl := Except.ok.inj h₀
    refine ⟨_, .cons ⟨trivial, rfl⟩ (.cons ⟨⟨rfl, ?_⟩, rfl⟩ (.cons ⟨trivial, rfl⟩ (.nil _))), ?_,
      ?_, ?_⟩
    · exact (by decide : 2 ∉ ({initproc, idleproc} : Finset ℕ))
    · rfl
    · rfl
    · exact Finset.mem_insert_self 2 _
  obtain ⟨s, hs, hc, hp, hm⟩ := hr
  exact ⟨s₀, s, h₀, hs, hc, hp, ((h _ s hs).2.2 2 hm).1⟩

end UCore.Sched
