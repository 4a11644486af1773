import UCore.Library.Run
import UCore.Stride.Model

/-! # The active processes

A process is active when it is in the run pool or runs. A call of `schedule`
keeps the set of active processes and picks one whose unbounded stride is least;
only forks and wakeups bring processes in.
-/

namespace UCore.Stride

open Library Library.SkewHeap BinaryTree SkewHeap

variable {s s' : State} {c c' : Config} {t : BinaryTree ℕ} {p q fuel : ℕ}

def InPool (s : State) (p : ℕ) : Prop :=
  ∃ t, Rep s.entries none s.runPool t ∧ p ∈ elems t

def Active (s : State) (p : ℕ) : Prop :=
  InPool s p ∨ p = s.current ∧ p ≠ idleproc ∧ (s.proc p).state = .runnable

/-- The pool holds runnable processes that do not run, and the active ones lie together. -/
structure Inv (c : Config) (t : BinaryTree ℕ) : Prop where
  pool : Pool c.state c.total t
  member : ∀ p ∈ elems t,
    p ≠ idleproc ∧ p ≠ c.state.current ∧ (c.state.proc p).state = .runnable
  close : Close c.state c.total (Active c.state)

theorem Pool.inPool_iff {total : ℕ → ℕ} (h : Pool s total t) : InPool s p ↔ p ∈ elems t := by
  constructor
  · rintro ⟨t', hr, hp⟩
    rwa [h.rep.unique hr]
  · intro hp
    exact ⟨t, h.rep, hp⟩

theorem Close.mono {total : ℕ → ℕ} {A B : ℕ → Prop} (h : Close s total A) (hb : ∀ p, B p → A p) :
    Close s total B :=
  ⟨h.wraps, fun p q hp hq => h.spread p q (hb p hp) (hb q hq)⟩

theorem Pool.congr {total total' : ℕ → ℕ} (h : Pool s total t) (hr : s'.runPool = s.runPool)
    (he : ∀ p ∈ elems t, Keeps s.entries s'.entries p)
    (ht : ∀ p ∈ elems t, total' p = total p) : Pool s' total' t := by
  constructor
  · rw [hr]
    exact h.rep.congr he
  · exact h.nodup
  · apply h.ordered.congr
    intro x hx y hy
    simp only [byTotal, ht x hx, ht y hy]

theorem keeps_refl {m : Entries} : Keeps m m p := ⟨rfl, rfl, rfl⟩

theorem pass_le : (s.pass p).toNat ≤ big := by
  unfold State.pass big
  split
  · exact le_rfl
  · rw [BitVec.toNat_udiv]
    exact Nat.div_le_self _ _

/-! ## A call of `schedule` -/

/-- The test of the current process puts all active processes into the pool. -/
theorem Inv.enqueueCurrent (h : Inv c t) (hf : t.numNodes + 1 < fuel) :
    ∃ s₁ t₁, (c.state.setProc c.state.current
        { c.state.proc c.state.current with needResched := false }).enqueueCurrent fuel = some s₁ ∧
      Pool s₁ c.total t₁ ∧ (∀ q, q ∈ elems t₁ ↔ Active c.state q) ∧
      t₁.numNodes ≤ t.numNodes + 1 ∧ Same c.state s₁ := by
  set s₀ := c.state.setProc c.state.current
    { c.state.proc c.state.current with needResched := false }
  have hs : Same c.state s₀ := same_of_update rfl rfl rfl rfl rfl
  have hp : Pool s₀ c.total t := h.pool.congr rfl (fun _ _ => keeps_refl) fun _ _ => rfl
  have hcur : s₀.current = c.state.current := rfl
  unfold State.enqueueCurrent State.schedClassEnqueue
  rw [hs.state, hcur]
  by_cases hrun : (c.state.proc c.state.current).state = .runnable ∧ c.state.current ≠ idleproc
  · rw [if_pos hrun.1, if_pos hrun.2]
    have hnew : c.state.current ∉ elems t := fun hm => (h.member _ hm).2.1 rfl
    have hiff : ∀ q, q = c.state.current ∨ q ∈ elems t ↔ Active c.state q := by
      intro q
      unfold Active
      rw [h.pool.inPool_iff, or_comm]
      apply or_congr_right
      constructor
      · rintro rfl
        exact ⟨rfl, hrun.2, hrun.1⟩
      · exact And.left
    have hc : Close s₀ c.total fun q => q = c.state.current ∨ q ∈ elems t :=
      (h.close.same hs).mono fun q hq => (hiff q).mp hq
    obtain ⟨s₁, t₁, he, hp₁, hm, hlen, hs₁⟩ := strideEnqueue_spec hp hnew hc hf
    exact ⟨s₁, t₁, he, hp₁, fun q => (hm q).trans (hiff q), hlen.le, hs.trans hs₁⟩
  · have he : (if (c.state.proc c.state.current).state = .runnable then
        if c.state.current ≠ idleproc then s₀.strideEnqueue fuel c.state.current else some s₀
        else some s₀) = some s₀ := by
      split
      · rename_i hst
        rw [if_neg fun hi => hrun ⟨hst, hi⟩]
      · rfl
    refine ⟨s₀, t, he, hp, fun q => ?_, Nat.le_succ _, hs⟩
    unfold Active
    rw [h.pool.inPool_iff]
    refine (or_iff_left ?_).symm
    rintro ⟨rfl, hi, hst⟩
    exact hrun ⟨hst, hi⟩

section Run

@[simp] theorem run_current : (s.run p).current = p := by
  simp only [State.run]
  split
  · rfl
  · rename_i h
    exact (not_not.mp h).symm

@[simp] theorem run_runPool : (s.run p).runPool = s.runPool := by
  simp only [State.run]
  split <;> rfl

@[simp] theorem run_entries : (s.run p).entries = s.entries := by
  simp only [State.run]
  split <;> rfl

theorem run_proc : (s.run p).proc =
    Function.update s.proc p { s.proc p with runs := (s.proc p).runs + 1 } := by
  simp only [State.run]
  split <;> rfl

theorem run_state : ((s.run p).proc q).state = (s.proc q).state := by
  rw [run_proc, Function.update_apply]
  split
  · rw [‹q = p›]
  · rfl

theorem run_stride : ((s.run p).proc q).lab6Stride = (s.proc q).lab6Stride := by
  rw [run_proc, Function.update_apply]
  split
  · rw [‹q = p›]
  · rfl

theorem run_priority : ((s.run p).proc q).lab6Priority = (s.proc q).lab6Priority := by
  rw [run_proc, Function.update_apply]
  split
  · rw [‹q = p›]
  · rfl

end Run

/-- What a call of `schedule` does when the processes in `A` are active. -/
structure Schedules (A : ℕ → Prop) (c c' : Config) : Prop where
  state : ∀ p, (c'.state.proc p).state = (c.state.proc p).state
  priority : ∀ p, (c'.state.proc p).lab6Priority = (c.state.proc p).lab6Priority
  active : ∀ p, Active c'.state p ↔ A p
  choice : (c'.state.current = idleproc ∧ (∀ p, ¬ A p) ∧ c'.total = c.total ∧ c'.picks = c.picks) ∨
    (c'.state.current ≠ idleproc ∧ A c'.state.current ∧
      (∀ p, A p → c.total c'.state.current ≤ c.total p) ∧
      c'.total = Function.update c.total c'.state.current
        (c.total c'.state.current + (c.state.pass c'.state.current).toNat) ∧
      c'.picks = Function.update c.picks c'.state.current (c.picks c'.state.current + 1))

theorem Inv.schedule (h : Inv c t) (hf : t.numNodes + 1 < fuel) :
    ∃ c' t', c.call fuel .schedule = some c' ∧ Inv c' t' ∧ Schedules (Active c.state) c c' := by
  obtain ⟨s₁, t₁, he, hp, hm, hlen, hs⟩ := h.enqueueCurrent hf
  have hmem : ∀ q ∈ elems t₁, q ≠ idleproc ∧ (c.state.proc q).state = .runnable := by
    intro q hq
    rcases (hm q).mp hq with hq | ⟨-, hi, hst⟩
    · obtain ⟨hi, -, hst⟩ := h.member q (h.pool.inPool_iff.mp hq)
      exact ⟨hi, hst⟩
    · exact ⟨hi, hst⟩
  cases t₁ with
  | nil =>
    have hroot : s₁.runPool = none := hp.rep
    have hn : ∀ p, ¬ Active c.state p := fun p hpa => List.not_mem_nil ((hm p).mpr hpa)
    have hd : s₁.dequeueNext fuel = some (idleproc, s₁) := by
      simp [State.dequeueNext, State.stridePickNext, hroot]
    have hp' : Pool (s₁.run idleproc) c.total .nil :=
      hp.congr run_runPool (by simp) fun _ _ => rfl
    have hn' : ∀ p, ¬ Active (s₁.run idleproc) p := by
      rintro p (hpa | ⟨hpa, hi, -⟩)
      · exact List.not_mem_nil (hp'.inPool_iff.mp hpa)
      · exact hi (hpa.trans run_current)
    refine ⟨{ c with state := s₁.run idleproc }, .nil, ?_, ⟨hp', by simp, ?_, ?_⟩, ?_, ?_, ?_, ?_⟩
    · simp [Config.call, State.schedule, he, hd, Config.advance]
    · intro p
      rw [run_stride, hs.stride]
      exact h.close.wraps p
    · exact fun p q hpa => absurd hpa (hn' p)
    · exact fun p => run_state.trans (hs.state p)
    · exact fun p => run_priority.trans (hs.priority p)
    · exact fun p => iff_of_false (hn' p) (hn p)
    · exact .inl ⟨run_current, hn, rfl, rfl⟩
  | node r a b =>
    have hc₁ : Close s₁ c.total fun q => q ∈ elems (.node r a b) :=
      (h.close.same hs).mono fun q hq => (hm q).mp hq
    have hlen' : (BinaryTree.node r a b).numNodes < fuel := by omega
    obtain ⟨s₂, hd, hp₂, hcur, hproc⟩ := dequeueNext_spec hp hc₁ hlen'
    have hr : Active c.state r := (hm r).mp List.mem_cons_self
    obtain ⟨hri, hrs⟩ := hmem r List.mem_cons_self
    have hleast : ∀ p, Active c.state p → c.total r ≤ c.total p := by
      intro p hpa
      rcases List.mem_cons.mp ((hm p).mpr hpa) with rfl | hpm
      · exact le_rfl
      · have := hp.ordered.1 p hpm
        simpa [byTotal] using this
    have hstate : ∀ q, (s₂.proc q).state = (c.state.proc q).state := by
      intro q
      rw [hproc, Function.update_apply, ← hs.state]
      split
      · rw [‹q = r›]
      · rfl
    have hprio : ∀ q, (s₂.proc q).lab6Priority = (c.state.proc q).lab6Priority := by
      intro q
      rw [hproc, Function.update_apply, ← hs.priority]
      split
      · rw [‹q = r›]
      · rfl
    set total' := Function.update c.total r (c.total r + (c.state.pass r).toNat) with htotal
    have hne : ∀ q ∈ elems (merge (byTotal c.total) a b), q ≠ r := by
      rintro q hq rfl
      exact (List.nodup_cons.mp hp.nodup).1 ((elems_merge _ a b).mem_iff.mp hq)
    have hp' : Pool (s₂.run r) total' (merge (byTotal c.total) a b) := by
      apply hp₂.congr run_runPool
      · intro q _
        rw [run_entries]
        exact keeps_refl
      · exact fun q hq => Function.update_of_ne (hne q hq) _ _
    have hact : ∀ q, Active (s₂.run r) q ↔ Active c.state q := by
      intro q
      rw [← hm q, Active, hp'.inPool_iff, mem_merge, run_current, run_state, hstate, elems_node,
        List.mem_cons, List.mem_append, or_comm]
      apply or_congr_left
      constructor
      · exact And.left
      · rintro rfl
        exact ⟨rfl, hri, hrs⟩
    refine ⟨⟨s₂.run r, total', Function.update c.picks r (c.picks r + 1)⟩, _, ?_,
      ⟨hp', ?_, ?_, ?_⟩, ?_, ?_, hact, ?_⟩
    · simp [Config.call, State.schedule, he, hd, Config.advance, hri, htotal]
    · intro q hq
      have hq₁ : q ∈ elems (.node r a b) :=
        List.mem_cons_of_mem r ((elems_merge _ a b).mem_iff.mp hq)
      exact ⟨(hmem q hq₁).1, by rw [run_current]; exact hne q hq,
        run_state.trans ((hstate q).trans (hmem q hq₁).2)⟩
    · intro q
      rw [run_stride, hproc, htotal]
      by_cases hq : q = r
      · subst hq
        simp only [Function.update_self]
        rw [BitVec.ofNat_add, ← h.close.wraps q, hs.stride, hs.pass]
        simp
      · simp only [Function.update_of_ne hq]
        rw [hs.stride]
        exact h.close.wraps q
    · intro p q hpa hqa
      rw [hact] at hpa hqa
      have := h.close.spread p q hpa hqa
      have := hleast q hqa
      have := pass_le (s := c.state) (p := r)
      simp only [htotal, Function.update_apply]
      split_ifs
      · omega
      · omega
      · subst q
        omega
      · omega
    · exact fun p => run_state.trans (hstate p)
    · exact fun p => run_priority.trans (hprio p)
    · simp only [run_current]
      exact .inr ⟨hri, hr, hleast, htotal, trivial⟩

/-! ## Processes that come and go -/

/-- The stride of the process is close to those of all active ones. -/
def NearActive (c : Config) (n : ℕ) : Prop :=
  ∀ q, Active c.state q → n ≤ c.total q + big ∧ c.total q ≤ n + big

theorem Inv.wakeup (h : Inv c t) (hi : p ≠ idleproc)
    (hst : (c.state.proc p).state = .sleeping ∨ (c.state.proc p).state = .uninit)
    (hn : NearActive c (c.total p)) (hf : t.numNodes + 1 < fuel) :
    ∃ s' t', c.state.wakeupProc fuel p = some s' ∧ Inv { c with state := s' } t' := by
  set s₁ := c.state.setProc p { c.state.proc p with state := .runnable, waitState := 0 } with hs₁
  have hz : (c.state.proc p).state ≠ .zombie := by
    rcases hst with hst | hst <;> simp [hst]
  have hr : (c.state.proc p).state ≠ .runnable := by
    rcases hst with hst | hst <;> simp [hst]
  have hp : p ∉ elems t := fun hm => hr (h.member p hm).2.2
  have hstride : ∀ q, (s₁.proc q).lab6Stride = (c.state.proc q).lab6Stride := by
    intro q
    by_cases hq : q = p
    · subst hq
      simp [hs₁, State.setProc]
    · simp [hs₁, State.setProc, hq]
  have hstate : ∀ q, (s₁.proc q).state = .runnable ↔
      q = p ∨ (c.state.proc q).state = .runnable := by
    intro q
    by_cases hq : q = p
    · subst hq
      simp [hs₁, State.setProc]
    · simp [hs₁, State.setProc, hq]
  have hclose : Close s₁ c.total fun q => q = p ∨ Active c.state q := by
    constructor
    · exact fun q => (hstride q).trans (h.close.wraps q)
    · rintro a b (rfl | ha) (rfl | hb)
      · omega
      · exact (hn b hb).1
      · exact (hn a ha).2
      · exact h.close.spread a b ha hb
  have hpool : Pool s₁ c.total t := h.pool.congr rfl (fun _ _ => keeps_refl) fun _ _ => rfl
  unfold State.wakeupProc
  rw [if_neg hz, if_pos hr, ← hs₁]
  by_cases hcur : p = c.state.current
  · refine ⟨s₁, t, if_neg (not_not.mpr hcur), hpool, ?_, ?_⟩
    · intro q hq
      obtain ⟨h₁, h₂, h₃⟩ := h.member q hq
      exact ⟨h₁, h₂, (hstate q).mpr (.inr h₃)⟩
    · apply hclose.mono
      rintro q (hq | ⟨hq, -, -⟩)
      · exact .inr (.inl (h.pool.inPool_iff.mpr (hpool.inPool_iff.mp hq)))
      · exact .inl (hq.trans hcur.symm)
  · have hc : Close s₁ c.total fun q => q = p ∨ q ∈ elems t :=
      hclose.mono fun q hq => hq.imp id fun hq => .inl (h.pool.inPool_iff.mpr hq)
    obtain ⟨s₂, t', he, hp', hm, -, hs⟩ := strideEnqueue_spec hpool hp hc hf
    refine ⟨s₂, t', ?_, hp', ?_, ?_⟩
    · have hcur' : p ≠ s₁.current := hcur
      rw [if_pos hcur', State.schedClassEnqueue, if_pos hi, he]
    · intro q hq
      have hcur₂ : s₂.current = c.state.current := hs.current
      simp only [hs.state, hcur₂, hstate]
      rcases (hm q).mp hq with rfl | hq
      · exact ⟨hi, hcur, .inl rfl⟩
      · obtain ⟨h₁, h₂, h₃⟩ := h.member q hq
        exact ⟨h₁, h₂, .inr h₃⟩
    · apply (hclose.same hs).mono
      rintro q (hq | ⟨hq, hqi, hqs⟩)
      · rcases (hm q).mp (hp'.inPool_iff.mp hq) with rfl | hq
        · exact .inl rfl
        · exact .inr (.inl (h.pool.inPool_iff.mpr hq))
      · have hqs' := hqs
        simp only [hs.state, hstate] at hqs'
        have hq' : q = c.state.current := hq.trans hs.current
        exact hqs'.imp id fun hrun => .inr ⟨hq', hqi, hrun⟩

/-- The state of a fork before its wakeup. -/
theorem Inv.alloc (h : Inv c t) (hc : p ≠ c.state.current)
    (hst : (c.state.proc p).state = .uninit ∨ (c.state.proc p).state = .zombie) :
    Inv { state := c.state.allocProc p, total := Function.update c.total p 0,
          picks := Function.update c.picks p 0 } t ∧
      ∀ q, Active (c.state.allocProc p) q → q ≠ p ∧ Active c.state q := by
  have hp : p ∉ elems t := by
    intro hm
    rw [(h.member p hm).2.2] at hst
    simp at hst
  have hne : ∀ q ∈ elems t, q ≠ p := fun q hq he => hp (he ▸ hq)
  have hpool : Pool (c.state.allocProc p) (Function.update c.total p 0) t := by
    apply h.pool.congr
    · rfl
    · intro q hq
      exact ⟨Function.update_of_ne (hne q hq) _ _, Function.update_of_ne (hne q hq) _ _,
        Function.update_of_ne (hne q hq) _ _⟩
    · exact fun q hq => Function.update_of_ne (hne q hq) _ _
  have hproc : ∀ q ≠ p, (c.state.allocProc p).proc q = c.state.proc q := fun q hq =>
    Function.update_of_ne hq _ _
  have hact : ∀ q, Active (c.state.allocProc p) q → q ≠ p ∧ Active c.state q := by
    rintro q (hq | ⟨hq, hi, hs⟩)
    · rw [hpool.inPool_iff] at hq
      exact ⟨hne q hq, .inl (h.pool.inPool_iff.mpr hq)⟩
    · have hqp : q ≠ p := fun he => hc (he ▸ hq)
      rw [hproc q hqp] at hs
      exact ⟨hqp, .inr ⟨hq, hi, hs⟩⟩
  refine ⟨⟨hpool, ?_, ?_, ?_⟩, hact⟩
  · intro q hq
    simp only [hproc q (hne q hq)]
    exact h.member q hq
  · intro q
    by_cases hq : q = p
    · subst hq
      simp [State.allocProc, State.setProc]
    · simp only [hproc q hq, Function.update_of_ne hq]
      exact h.close.wraps q
  · intro a b ha hb
    obtain ⟨hap, ha⟩ := hact a ha
    obtain ⟨hbp, hb⟩ := hact b hb
    simp only [Function.update_of_ne hap, Function.update_of_ne hbp]
    exact h.close.spread a b ha hb

theorem Inv.update {x : Proc} (h : Inv c t)
    (hs : x.state = (c.state.proc c.state.current).state ∨ x.state ≠ .runnable)
    (hx : x.lab6Stride = (c.state.proc c.state.current).lab6Stride) :
    Inv { c with state := c.state.setProc c.state.current x } t := by
  have hpool : Pool (c.state.setProc c.state.current x) c.total t :=
    h.pool.congr rfl (fun _ _ => keeps_refl) fun _ _ => rfl
  have hproc : ∀ q ≠ c.state.current,
      (c.state.setProc c.state.current x).proc q = c.state.proc q := fun q hq =>
    Function.update_of_ne hq _ _
  refine ⟨hpool, ?_, ?_, ?_⟩
  · intro q hq
    obtain ⟨h₁, h₂, h₃⟩ := h.member q hq
    exact ⟨h₁, h₂, by simpa only [hproc q h₂] using h₃⟩
  · intro q
    by_cases hq : q = c.state.current
    · subst hq
      simpa [State.setProc, hx] using h.close.wraps c.state.current
    · simpa only [hproc q hq] using h.close.wraps q
  · have hact : ∀ q, Active (c.state.setProc c.state.current x) q → Active c.state q := by
      rintro q (hq | ⟨hq, hi, hr⟩)
      · exact .inl (h.pool.inPool_iff.mpr (hpool.inPool_iff.mp hq))
      · have hq' : q = c.state.current := hq
        subst hq'
        simp only [State.setProc, Function.update_self] at hr
        refine .inr ⟨rfl, hi, ?_⟩
        rcases hs with hs | hs
        · exact hs ▸ hr
        · exact absurd hr hs
    exact fun a b ha hb => h.close.spread a b (hact a ha) (hact b hb)

end UCore.Stride
