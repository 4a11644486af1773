import UCore.Library.Run
import UCore.Sched.Model

/-! # The run queue invariant

The run queue holds exactly the runnable processes other than the current one and `idleproc`, in
the order in which they were enqueued. Wakeups append to it and `schedule` takes its first entry.
-/

namespace UCore.Sched

open Library State

@[simp] theorem setProc_proc {s : State} {p r : ℕ} {x : Proc} :
    (s.setProc p x).proc r = if r = p then x else s.proc r := by
  simp [setProc, Function.update_apply]

@[simp] theorem setProc_current {s : State} {p : ℕ} {x : Proc} :
    (s.setProc p x).current = s.current := rfl

@[simp] theorem setProc_procs {s : State} {p : ℕ} {x : Proc} : (s.setProc p x).procs = s.procs :=
  rfl

section Wakeups

variable {s t : State} {p q : ℕ}

theorem schedClassEnqueue_state (h : s.schedClassEnqueue p = .ok t) :
    (t.proc q).state = (s.proc q).state := by
  unfold schedClassEnqueue rrEnqueue at h
  split at h
  · split at h
    · cases h
    split at h
    · cases h
    obtain rfl := Except.ok.inj h
    dsimp only
    rw [setProc_proc]
    split
    · subst q
      rfl
    · rfl
  · obtain rfl := Except.ok.inj h
    rfl

theorem wakeupProc_runnable (h : s.wakeupProc p = .ok t)
    (hq : q = p ∨ (s.proc q).state = .runnable) : (t.proc q).state = .runnable := by
  unfold wakeupProc at h
  split at h
  · cases h
  split at h
  · have hset : ((s.setProc p { s.proc p with state := .runnable, waitState := 0 }).proc q).state =
        .runnable := by
      rw [setProc_proc]
      split
      · rfl
      · exact hq.resolve_left ‹_›
    dsimp only at h
    split at h
    · exact (schedClassEnqueue_state h).trans hset
    · obtain rfl := Except.ok.inj h
      exact hset
  · rename_i hp
    obtain rfl := Except.ok.inj h
    rcases hq with rfl | hq
    · exact not_not.mp hp
    · exact hq

theorem schedClassProcTick_state : ((s.schedClassProcTick p).proc q).state = (s.proc q).state := by
  unfold schedClassProcTick rrProcTick
  split <;>
  · rw [setProc_proc]
    split
    · subst q
      rfl
    · rfl

end Wakeups

/-- The run queue is the sequence `q`. -/
structure Queue (s : State) (q : List ℕ) : Prop where
  ring : s.links.Ring .runList (q.map .runLink)
  rq : ∀ p ∈ s.procs, (s.proc p).onRq = true ↔ p ∈ q
  link : ∀ p ∈ s.procs, p ∉ q → listEmpty s.links (.runLink p) = true
  num : s.procNum.toNat = q.length
  sub : ∀ p ∈ q, p ∈ s.procs
  cap : s.procs.card ≤ maxProcess
  fifo : s.enqueued = s.picked ++ q

/-- The steps inside the scheduler keep all that the rest of the kernel reads. -/
structure Same (s t : State) : Prop where
  current : t.current = s.current
  procs : t.procs = s.procs
  state : ∀ p, (t.proc p).state = (s.proc p).state
  parent : ∀ p, (t.proc p).parent = (s.proc p).parent

namespace Queue

variable {s t : State} {q : List ℕ} {p : ℕ} {x : Proc}

theorem nodup (k : Queue s q) : q.Nodup := List.Nodup.of_map _ k.ring.nodup_tail

theorem length_le (k : Queue s q) : q.length ≤ s.procs.card := by
  rw [← List.toFinset_card_of_nodup k.nodup]
  exact Finset.card_le_card fun p hp => k.sub p (List.mem_toFinset.mp hp)

theorem setProc (k : Queue s q) (hx : x.onRq = (s.proc p).onRq) : Queue (s.setProc p x) q := by
  refine ⟨k.ring, ?_, k.link, k.num, k.sub, k.cap, k.fifo⟩
  intro r hr
  rw [setProc_proc]
  split
  · rename_i h
    subst h
    rw [hx]
    exact k.rq r hr
  · exact k.rq r hr

theorem rrEnqueue (k : Queue s q) (hp : p ∈ s.procs) (hq : p ∉ q) :
    ∃ t, s.rrEnqueue p = .ok t ∧ Queue t (q ++ [p]) ∧ Same s t := by
  have he := k.link p hp hq
  have hn : ¬ (s.proc p).onRq = true := fun h => hq ((k.rq p hp).mp h)
  have hnew : Entry.runLink p ∉ .runList :: q.map .runLink := by simpa using hq
  have hlen : q.length + 1 ≤ maxProcess := by
    have hnd : (q ++ [p]).Nodup := by
      rw [List.nodup_append]
      exact ⟨k.nodup, by simp, by rintro a ha b hb rfl; simp at hb; exact hq (hb ▸ ha)⟩
    have hsub : (q ++ [p]).toFinset ⊆ s.procs := by
      intro r hr
      simp only [List.toFinset_append, Finset.mem_union, List.mem_toFinset,
        List.mem_singleton] at hr
      rcases hr with hr | rfl
      · exact k.sub r hr
      · exact hp
    have := Finset.card_le_card hsub
    rw [List.toFinset_card_of_nodup hnd, List.length_append, List.length_singleton] at this
    exact this.trans k.cap
  rw [State.rrEnqueue, if_neg (by simp [he]), if_neg hn]
  refine ⟨_, rfl, ⟨?_, ?_, ?_, ?_, ?_, k.cap, ?_⟩, ⟨rfl, rfl, ?_, ?_⟩⟩
  · rw [List.map_append]
    exact listAddBefore_ring k.ring hnew
  · intro r hr
    simp only [setProc_proc, List.mem_append, List.mem_singleton]
    split
    · simp [*]
    · simpa [*] using k.rq r hr
  · intro r hr hrq
    simp only [List.mem_append, List.mem_singleton, not_or] at hrq
    have h := listAddBefore_congr k.ring hnew (y := .runLink r) (by simpa using hrq.1)
      (by simpa using hrq.2)
    have hl := k.link r hr hrq.1
    simpa [listEmpty, h.1] using hl
  · unfold maxProcess at hlen
    rw [List.length_append, List.length_singleton, ← k.num, UInt32.toNat_add]
    have : s.procNum.toNat + 1 < 2 ^ 32 := by rw [k.num]; omega
    simpa using this
  · intro r hr
    simp only [List.mem_append, List.mem_singleton] at hr
    rcases hr with hr | rfl
    · exact k.sub r hr
    · exact hp
  · simp [k.fifo, State.setProc]
  · intro r
    simp only [setProc_proc]
    split <;> simp [*]
  · intro r
    simp only [setProc_proc]
    split <;> simp [*]

theorem rrPickNext (k : Queue s q) : s.rrPickNext = q.head? := by
  have hn := k.ring.next_head
  have he := listEmpty_iff k.ring
  unfold State.rrPickNext
  rcases q with _ | ⟨n, q⟩
  · simp [he.mpr rfl]
  · have : listEmpty s.links .runList = false := by simpa using he.not.mpr (by simp)
    simp [this, listNext, hn]

theorem rrDequeue {n : ℕ} (k : Queue s (n :: q)) :
    ∃ t, s.rrDequeue n = .ok t ∧ Queue t q ∧ Same s t := by
  have hn : n ∈ s.procs := k.sub n (by simp)
  have hr : (s.proc n).onRq = true := (k.rq n hn).mpr (by simp)
  have he : listEmpty s.links (.runLink n) = false := listEmpty_of_mem k.ring (by simp)
  have hnd : n ∉ q := (List.nodup_cons.mp k.nodup).1
  have hring : s.links.Ring .runList ([] ++ .runLink n :: q.map .runLink) := k.ring
  rw [State.rrDequeue, if_neg (by simp [hr]), if_neg (by simp [he])]
  refine ⟨_, rfl, ⟨?_, ?_, ?_, ?_, ?_, k.cap, ?_⟩, ⟨rfl, rfl, ?_, ?_⟩⟩
  · exact listDelInit_ring hring
  · intro r hr
    simp only [setProc_proc]
    split
    · simp [*]
    · simpa [*] using k.rq r hr
  · intro r hr hrq
    rcases eq_or_ne r n with rfl | hrn
    · exact listEmpty_listInit
    · have h₁ := listDel_congr hring (x := .runLink n) (y := .runLink r) (by simp)
        (by simpa [hrn] using hrq)
      have h₂ := listInit_congr (L := listDel s.links (.runLink n)) (y := .runLink r)
        (e := .runLink n) (by simpa)
      have hl := k.link r hr (by simpa [hrn] using hrq)
      simpa [listEmpty, listDelInit, h₂.1, h₁.1] using hl
  · have hlen := k.length_le.trans k.cap
    have hnum := k.num
    unfold maxProcess at hlen
    rw [List.length_cons] at hlen hnum
    rw [UInt32.toNat_sub]
    simp only [UInt32.reduceToNat]
    omega
  · intro r hr
    exact k.sub r (List.mem_cons_of_mem _ hr)
  · simp [k.fifo, State.setProc]
  · intro r
    simp only [setProc_proc]
    split <;> simp [*]
  · intro r
    simp only [setProc_proc]
    split <;> simp [*]

end Queue

/-- The parts of the process tree that keep the wakeups of `do_exit` inside the process table.
The processes of `l` are those that `do_exit` has still to give to `initproc`. -/
structure Tree (s : State) (l : List ℕ) : Prop where
  idle : idleproc ∈ s.procs
  init : initproc ∈ s.procs
  alive : (s.proc initproc).state ≠ .zombie
  current : s.current ∈ s.procs
  parent : ∀ p ∈ s.procs, (s.proc p).parent ∈ s.procs
  childless : ∀ z ∈ s.procs, (s.proc z).state = .zombie →
    ∀ p ∈ s.procs, p ∉ l → (s.proc p).parent ≠ z

structure Inv (s : State) (q l : List ℕ) : Prop where
  queue : Queue s q
  mem : ∀ p ∈ s.procs, p ∈ q ↔
    (s.proc p).state = .runnable ∧ p ≠ s.current ∧ p ≠ idleproc
  tree : Tree s l

/-- What a wakeup changes outside the run queue: some states from asleep to runnable. -/
structure Wakes (s t : State) : Prop where
  current : t.current = s.current
  procs : t.procs = s.procs
  parent : ∀ p, (t.proc p).parent = (s.proc p).parent
  zombie : ∀ p, (t.proc p).state = .zombie ↔ (s.proc p).state = .zombie

namespace Wakes

variable {s t u : State}

theorem refl (s : State) : Wakes s s := ⟨rfl, rfl, fun _ => rfl, fun _ => Iff.rfl⟩

theorem trans (h : Wakes s t) (h' : Wakes t u) : Wakes s u :=
  ⟨h'.current.trans h.current, h'.procs.trans h.procs,
    fun p => (h'.parent p).trans (h.parent p), fun p => (h'.zombie p).trans (h.zombie p)⟩

theorem tree {l : List ℕ} (h : Wakes s t) (k : Tree s l) : Tree t l := by
  refine ⟨?_, ?_, ?_, ?_, ?_, ?_⟩
  · rw [h.procs]; exact k.idle
  · rw [h.procs]; exact k.init
  · rw [Ne, h.zombie]; exact k.alive
  · rw [h.procs, h.current]; exact k.current
  · intro p hp
    rw [h.procs] at hp ⊢
    rw [h.parent]
    exact k.parent p hp
  · intro z hz hs p hp hl
    rw [h.procs] at hz hp
    rw [h.parent]
    exact k.childless z hz ((h.zombie z).mp hs) p hp hl

end Wakes

theorem Same.wakes {s t : State} (h : Same s t) : Wakes s t :=
  ⟨h.current, h.procs, h.parent, fun p => by rw [h.state]⟩

namespace Inv

variable {s t : State} {q l : List ℕ} {p : ℕ} {x : Proc}

theorem setProc (k : Inv s q l) (hrq : x.onRq = (s.proc p).onRq)
    (hst : x.state = (s.proc p).state) (hpa : x.parent = (s.proc p).parent) :
    Inv (s.setProc p x) q l ∧ Wakes s (s.setProc p x) := by
  have hs : ∀ r, ((s.setProc p x).proc r).state = (s.proc r).state := by
    intro r
    rw [setProc_proc]
    split <;> simp [*]
  have hw : Wakes s (s.setProc p x) := by
    refine ⟨rfl, rfl, ?_, fun r => by rw [hs]⟩
    intro r
    rw [setProc_proc]
    split <;> simp [*]
  exact ⟨⟨k.queue.setProc hrq, fun r hr => by rw [hs]; exact k.mem r hr, hw.tree k.tree⟩, hw⟩

/-- A process that is not runnable becomes so, and is enqueued unless it is current or idle. -/
theorem wakeup_ok (k : Inv s q l) (hp : p ∈ s.procs) (hz : (s.proc p).state ≠ .zombie) :
    ∃ t q', s.wakeupProc p = .ok t ∧ Inv t q' l ∧ Wakes s t := by
  unfold wakeupProc
  rw [if_neg hz]
  by_cases hr : (s.proc p).state = .runnable
  · rw [if_neg (by simp [hr])]
    exact ⟨s, q, rfl, k, .refl s⟩
  rw [if_pos hr]
  let x : Proc := { s.proc p with state := .runnable, waitState := 0 }
  have hq : p ∉ q := fun h => hr ((k.mem p hp).mp h).1
  have k₁ : Queue (s.setProc p x) q := k.queue.setProc rfl
  have hw : Wakes s (s.setProc p x) := by
    refine ⟨rfl, rfl, ?_, ?_⟩
    · intro r
      rw [setProc_proc]
      split <;> simp [*, x]
    · intro r
      rw [setProc_proc]
      split
      · simp [*, x]
      · rfl
  have hmem : ∀ r ∈ s.procs, r ≠ p → (r ∈ q ↔ ((s.setProc p x).proc r).state = .runnable ∧
      r ≠ s.current ∧ r ≠ idleproc) := by
    intro r hr hrp
    rw [setProc_proc, if_neg hrp]
    exact k.mem r hr
  have hkeep : (p = s.current ∨ p = idleproc) → Inv (s.setProc p x) q l := by
    intro h
    refine ⟨k₁, ?_, hw.tree k.tree⟩
    intro r hr'
    rcases eq_or_ne r p with rfl | hrp
    · simp only [hq, false_iff, setProc_current]
      tauto
    · exact hmem r hr' hrp
  dsimp only
  by_cases hc : p = s.current
  · rw [if_neg (by simpa using hc)]
    exact ⟨_, q, rfl, hkeep (.inl hc), hw⟩
  rw [if_pos (by simpa using hc), schedClassEnqueue]
  by_cases hi : p = idleproc
  · rw [if_neg (by simpa using hi)]
    exact ⟨_, q, rfl, hkeep (.inr hi), hw⟩
  rw [if_pos hi]
  obtain ⟨t, ht, k₂, hsame⟩ := k₁.rrEnqueue (p := p) hp hq
  have hw₂ : Wakes s t := hw.trans hsame.wakes
  refine ⟨t, q ++ [p], ht, ⟨k₂, ?_, hw₂.tree k.tree⟩, hw₂⟩
  intro r hr'
  rw [hsame.procs] at hr'
  rw [hsame.state, hsame.current, List.mem_append, List.mem_singleton]
  rcases eq_or_ne r p with rfl | hrp
  · simp [x, hc, hi]
  · simpa [hrp] using hmem r hr' hrp

end Inv

/-- The result satisfies `P`, or an assertion outside the round robin class has failed. -/
def Sound (P : State → Prop) : Except Fault State → Prop
  | .ok t => P t
  | .error e => e = .wakeupZombie ∨ e = .forkWaiting

theorem Sound.bind {P Q : State → Prop} {r : Except Fault State} {f : State → Except Fault State}
    (h : Sound P r) (hf : ∀ t, P t → Sound Q (f t)) : Sound Q (r >>= f) := by
  cases r with
  | ok t => exact hf t h
  | error e => exact h

theorem Sound.mono {P Q : State → Prop} {r : Except Fault State} (h : Sound P r)
    (hpq : ∀ t, P t → Q t) : Sound Q r := by
  cases r with
  | ok t => exact hpq t h
  | error e => exact h

namespace Inv

variable {s t : State} {q l : List ℕ} {p : ℕ} {x : Proc}

theorem wakeupProc (k : Inv s q l) (hp : p ∈ s.procs) :
    Sound (fun t => ∃ q', Inv t q' l ∧ Wakes s t) (s.wakeupProc p) := by
  by_cases hz : (s.proc p).state = .zombie
  · rw [State.wakeupProc, if_pos hz]
    exact .inl rfl
  · obtain ⟨t, q', ht, k', hw⟩ := k.wakeup_ok hp hz
    rw [ht]
    exact ⟨q', k', hw⟩

theorem wakeupProcs (k : Inv s q l) (ps : List ℕ) (hp : ∀ p ∈ ps, p ∈ s.procs) :
    Sound (fun t => ∃ q', Inv t q' l ∧ Wakes s t) (wakeupProcs s ps) := by
  induction ps generalizing s q with
  | nil => exact ⟨q, k, .refl s⟩
  | cons p ps ih =>
    refine (k.wakeupProc (hp p (by simp))).bind ?_
    rintro t ⟨q', k', hw⟩
    refine (ih k' fun r hr => ?_).mono ?_
    · rw [hw.procs]
      exact hp r (by simp [hr])
    · rintro u ⟨q'', k'', hw'⟩
      exact ⟨q'', k'', hw.trans hw'⟩

theorem tick (k : Inv s q l) (ps : List ℕ) (hp : ∀ p ∈ ps, p ∈ s.procs) :
    Sound (fun t => ∃ q', Inv t q' l) (s.runTimerList ps) := by
  refine (k.wakeupProcs ps hp).bind ?_
  rintro t ⟨q', k', -⟩
  refine ⟨q', ?_⟩
  unfold schedClassProcTick rrProcTick
  split
  · refine (k'.setProc ?_ ?_ ?_).1 <;> rfl
  · refine (k'.setProc ?_ ?_ ?_).1 <;> rfl

theorem kill (k : Inv s q l) (pid : ℕ) :
    Sound (fun t => ∃ q', Inv t q' l) ((s.doKill pid).map Prod.snd) := by
  unfold doKill
  cases hf : s.findProc pid with
  | none => exact ⟨q, k⟩
  | some p =>
    have hp : p ∈ s.procs := by
      unfold findProc at hf
      split at hf
      · obtain rfl : pid = p := by simpa using hf
        rename_i h
        exact h.2
      · cases hf
    dsimp only
    split
    · obtain ⟨k₁, -⟩ := k.setProc (p := p)
        (x := { s.proc p with flags := (s.proc p).flags ||| pfExiting }) rfl rfl rfl
      split
      · have := k₁.wakeupProc (p := p) hp
        revert this
        cases State.wakeupProc (s.setProc p _) p with
        | ok t => exact fun ⟨q', k', _⟩ => ⟨q', k'⟩
        | error e => exact id
      · exact ⟨q, k₁⟩
    · exact ⟨q, k⟩

theorem setCurrent (k : Inv s q l) (hx : x.onRq = (s.proc s.current).onRq) :
    Queue (s.setProc s.current x) q ∧
      ∀ p ∈ s.procs, p ∈ q ↔ ((s.setProc s.current x).proc p).state = .runnable ∧
        p ≠ s.current ∧ p ≠ idleproc := by
  refine ⟨k.queue.setProc hx, ?_⟩
  intro p hp
  rw [setProc_proc]
  rcases eq_or_ne p s.current with rfl | hpc
  · rw [k.mem _ hp]
    simp
  · rw [if_neg hpc]
    exact k.mem p hp

theorem sleep (k : Inv s q l) (w : UInt32) : Inv (s.sleep w) q l := by
  obtain ⟨kq, km⟩ := k.setCurrent
    (x := { s.proc s.current with state := .sleeping, waitState := w }) rfl
  have hpar : ∀ p, ((s.sleep w).proc p).parent = (s.proc p).parent := by
    intro p
    simp only [State.sleep, setProc_proc]
    split <;> simp [*]
  have hz : ∀ p, ((s.sleep w).proc p).state = .zombie → (s.proc p).state = .zombie := by
    intro p
    simp only [State.sleep, setProc_proc]
    split <;> simp
  refine ⟨kq, km, ⟨k.tree.idle, k.tree.init, fun h => k.tree.alive (hz _ h),
    k.tree.current, ?_, ?_⟩⟩
  · intro p hp
    rw [hpar]
    exact k.tree.parent p hp
  · intro z hzp hs p hp hl
    rw [hpar]
    exact k.tree.childless z hzp (hz z hs) p hp hl

theorem adopt (k : Inv s q (p :: l)) :
    Inv (s.setProc p { s.proc p with parent := initproc }) q l := by
  let x : Proc := { s.proc p with parent := initproc }
  have hs : ∀ r, ((s.setProc p x).proc r).state = (s.proc r).state := by
    intro r
    rw [setProc_proc]
    split <;> simp [*, x]
  have hpar : ∀ r, ((s.setProc p x).proc r).parent =
      if r = p then initproc else (s.proc r).parent := by
    intro r
    rw [setProc_proc]
    split <;> simp [*, x]
  refine ⟨k.queue.setProc rfl, fun r hr => by rw [hs]; exact k.mem r hr,
    ⟨k.tree.idle, k.tree.init, by rw [hs]; exact k.tree.alive, k.tree.current, ?_, ?_⟩⟩
  · intro r hr
    rw [hpar]
    split
    · exact k.tree.init
    · exact k.tree.parent r hr
  · intro z hz hzs r hr hl
    rw [hs] at hzs
    rw [hpar]
    split
    · rintro rfl
      exact k.tree.alive hzs
    · exact k.tree.childless z hz hzs r hr (by simp [*])

theorem reparent (k : Inv s q l) (hl : ∀ p ∈ l, p ∈ s.procs) :
    Sound (fun t => ∃ q', Inv t q' []) (s.reparent l) := by
  induction l generalizing s q with
  | nil => exact ⟨q, k⟩
  | cons p l ih =>
    have k₁ := k.adopt
    have hl' : ∀ r ∈ l, r ∈ s.procs := fun r hr => hl r (by simp [hr])
    unfold State.reparent
    dsimp only
    split
    · refine (k₁.wakeupProc k₁.tree.init).bind ?_
      rintro t ⟨q', k', hw⟩
      exact ih k' fun r hr => by rw [hw.procs]; exact hl' r hr
    · exact ih k₁ hl'

theorem exit (k : Inv s q []) (hi : s.current ≠ initproc) (c : List ℕ)
    (hc : ∀ p, p ∈ c ↔ p ∈ s.procs ∧ (s.proc p).parent = s.current) :
    Sound (fun t => ∃ q', Inv t q' []) (s.doExit c) := by
  let x : Proc := { s.proc s.current with state := .zombie }
  have hpar : ∀ r, ((s.setProc s.current x).proc r).parent = (s.proc r).parent := by
    intro r
    rw [setProc_proc]
    split <;> simp [*, x]
  obtain ⟨kq, km⟩ := k.setCurrent (x := x) rfl
  have k₁ : Inv (s.setProc s.current x) q c := by
    refine ⟨kq, km, ⟨k.tree.idle, k.tree.init, ?_, k.tree.current, ?_, ?_⟩⟩
    · rw [setProc_proc, if_neg (Ne.symm hi)]
      exact k.tree.alive
    · intro p hp
      rw [hpar]
      exact k.tree.parent p hp
    · intro z hz hzs p hp hpc
      rw [hpar]
      rcases eq_or_ne z s.current with rfl | hzc
      · exact fun h => hpc ((hc p).mpr ⟨hp, h⟩)
      · rw [setProc_proc, if_neg hzc] at hzs
        exact k.tree.childless z hz hzs p hp (by simp)
  have hcs : ∀ p ∈ c, p ∈ s.procs := fun p hp => ((hc p).mp hp).1
  unfold doExit
  dsimp only
  split
  · refine (k₁.wakeupProc ?_).bind ?_
    · rw [hpar]
      exact k.tree.parent _ k.tree.current
    · rintro t ⟨q', k', hw⟩
      exact k'.reparent fun r hr => by rw [hw.procs]; exact hcs r hr
  · exact k₁.reparent hcs

/-- The first half of `schedule`: the current process is appended if it can go on, after which
the queue holds every runnable process but `idleproc`. -/
theorem enqueueCurrent (k : Inv s q l) :
    ∃ t q', s.enqueueCurrent = .ok t ∧ Queue t q' ∧ Same s t ∧
      ∀ p ∈ s.procs, p ∈ q' ↔ (s.proc p).state = .runnable ∧ p ≠ idleproc := by
  unfold State.enqueueCurrent
  have hc := k.tree.current
  have hcq : s.current ∉ q := fun h => ((k.mem _ hc).mp h).2.1 rfl
  have hother : ∀ p ∈ s.procs, p ≠ s.current →
      (p ∈ q ↔ (s.proc p).state = .runnable ∧ p ≠ idleproc) := by
    intro p hp hpc
    rw [k.mem p hp]
    simp [hpc]
  by_cases hr : (s.proc s.current).state = .runnable ∧ s.current ≠ idleproc
  · rw [if_pos hr.1, schedClassEnqueue, if_pos hr.2]
    obtain ⟨t, ht, kt, hs⟩ := k.queue.rrEnqueue hc hcq
    refine ⟨t, q ++ [s.current], ht, kt, hs, fun p hp => ?_⟩
    rcases eq_or_ne p s.current with rfl | hpc
    · simpa using hr
    · simpa [hpc] using hother p hp hpc
  · refine ⟨s, q, ?_, k.queue, ⟨rfl, rfl, fun _ => rfl, fun _ => rfl⟩, fun p hp => ?_⟩
    · split
      · rw [schedClassEnqueue, if_neg fun h => hr ⟨‹_›, h⟩]
      · rfl
    · rcases eq_or_ne p s.current with rfl | hpc
      · simp only [hcq, false_iff]
        exact hr
      · exact hother p hp hpc

theorem procRun_eq : s.procRun p = { s with current := p } := by
  unfold procRun
  split
  · rfl
  · rename_i h
    obtain rfl : p = s.current := by simpa using h
    rfl

theorem switchTo (kt : Tree s l) (kq : Queue s q) (hp : p ∈ s.procs)
    (hm : ∀ r ∈ s.procs, r ∈ q ↔ (s.proc r).state = .runnable ∧ r ≠ p ∧ r ≠ idleproc)
    (n : Int32) : Inv ((s.setProc p { s.proc p with runs := n }).procRun p) q l := by
  let x : Proc := { s.proc p with runs := n }
  have hs : ∀ r, ((s.setProc p x).proc r).state = (s.proc r).state ∧
      ((s.setProc p x).proc r).parent = (s.proc r).parent := by
    intro r
    rw [setProc_proc]
    split <;> simp [*, x]
  have kq' : Queue (s.setProc p x) q := kq.setProc rfl
  rw [procRun_eq]
  refine ⟨⟨kq'.ring, kq'.rq, kq'.link, kq'.num, kq'.sub, kq'.cap, kq'.fifo⟩, ?_,
    ⟨kt.idle, kt.init, ?_, hp, ?_, ?_⟩⟩
  · intro r hr
    rw [(hs r).1]
    exact hm r hr
  · rw [(hs _).1]
    exact kt.alive
  · intro r hr
    rw [(hs r).2]
    exact kt.parent r hr
  · intro z hz hzs r hr hl
    rw [(hs r).2]
    exact kt.childless z hz ((hs z).1 ▸ hzs) r hr hl

theorem schedule (k : Inv s q []) : ∃ t q', s.schedule = .ok t ∧ Inv t q' [] := by
  obtain ⟨k₁, -⟩ := k.setProc (p := s.current)
    (x := { s.proc s.current with needResched := false }) rfl rfl rfl
  obtain ⟨s₂, q₂, h₂, k₂, hs₂, hm₂⟩ := k₁.enqueueCurrent
  have t₂ := hs₂.wakes.tree k₁.tree
  have hm : ∀ p ∈ s₂.procs, p ∈ q₂ ↔ (s₂.proc p).state = .runnable ∧ p ≠ idleproc := by
    intro p hp
    rw [hs₂.state]
    exact hm₂ p (hs₂.procs ▸ hp)
  have hpick := k₂.rrPickNext
  unfold State.schedule
  rw [h₂]
  rcases q₂ with _ | ⟨n, q₃⟩
  · refine ⟨_, [], ?_, switchTo t₂ k₂ t₂.idle ?_ ((s₂.proc idleproc).runs + 1)⟩
    · simp [bind, Except.bind, State.dequeueNext, hpick]
    · intro r hr
      rw [hm r hr]
      tauto
  · obtain ⟨s₃, h₃, k₃, hs₃⟩ := k₂.rrDequeue
    have hn : n ∈ s₃.procs := hs₃.procs ▸ k₂.sub n (by simp)
    have hnd : n ∉ q₃ := (List.nodup_cons.mp k₂.nodup).1
    refine ⟨_, q₃, ?_, switchTo (hs₃.wakes.tree t₂) k₃ hn ?_ ((s₃.proc n).runs + 1)⟩
    · simp [bind, Except.bind, State.dequeueNext, hpick, h₃, Except.map]
    · intro r hr
      rw [hs₃.state]
      have := hm r (hs₃.procs ▸ hr)
      rcases eq_or_ne r n with rfl | hrn
      · simp [hnd]
      · simpa [hrn] using this

theorem fork (k : Inv s q []) (hrun : s.Running) (hc : p ∉ s.procs) :
    Sound (fun t => ∃ q', Inv t q' []) (s.doFork p) := by
  unfold doFork
  split
  · exact ⟨q, k⟩
  split
  · exact .inr rfl
  rename_i hcap _
  have hpq : p ∉ q := fun h => hc (k.queue.sub p h)
  have hlink : Entry.runLink p ∉ .runList :: q.map .runLink := by simpa using hpq
  have hne : ∀ r ∈ s.procs, r ≠ p := fun r hr h => hc (h ▸ hr)
  have hmem : ∀ r, r ∈ insert p s.procs ↔ r = p ∨ r ∈ s.procs := fun r => Finset.mem_insert
  let u := (s.allocProc p).setProc p { (s.allocProc p).proc p with parent := s.current }
  have hu : ∀ r, u.proc r = if r = p then ⟨.uninit, 0, 0, false, 0, false, 0, s.current⟩
      else s.proc r := by
    intro r
    simp only [u, allocProc, setProc_proc]
    split <;> simp [*]
  have hkeep : ∀ y ∈ .runList :: q.map .runLink, (listInit s.links (.runLink p)).next y =
      s.links.next y ∧ (listInit s.links (.runLink p)).prev y = s.links.prev y :=
    fun y hy => listInit_congr fun h => hlink (h ▸ hy)
  have ku : Inv u q [] := by
    refine ⟨⟨?_, ?_, ?_, k.queue.num, ?_, ?_, k.queue.fifo⟩, ?_, ⟨?_, ?_, ?_, ?_, ?_, ?_⟩⟩
    · exact k.queue.ring.congr (fun y hy => (hkeep y hy).1) fun y hy => (hkeep y hy).2
    · intro r hr
      rw [hu]
      rcases (hmem r).mp hr with rfl | hr
      · simp [hpq]
      · rw [if_neg (hne r hr)]
        exact k.queue.rq r hr
    · intro r hr hrq
      rcases (hmem r).mp hr with rfl | hr
      · exact listEmpty_listInit
      · have h := listInit_congr (L := s.links) (y := .runLink r) (e := .runLink p)
          (by simpa using hne r hr)
        have := k.queue.link r hr hrq
        simpa [u, allocProc, State.setProc, listEmpty, h.1] using this
    · intro r hr
      exact Finset.mem_insert_of_mem (k.queue.sub r hr)
    · have := Finset.card_insert_of_notMem hc
      change (insert p s.procs).card ≤ maxProcess
      omega
    · intro r hr
      rw [hu]
      rcases (hmem r).mp hr with rfl | hr
      · simp [hpq]
      · rw [if_neg (hne r hr)]
        exact k.mem r hr
    · exact Finset.mem_insert_of_mem k.tree.idle
    · exact Finset.mem_insert_of_mem k.tree.init
    · rw [hu, if_neg (hne _ k.tree.init)]
      exact k.tree.alive
    · exact Finset.mem_insert_of_mem k.tree.current
    · intro r hr
      rw [hu]
      rcases (hmem r).mp hr with rfl | hr
      · rw [if_pos rfl]
        exact Finset.mem_insert_of_mem k.tree.current
      · rw [if_neg (hne r hr)]
        exact Finset.mem_insert_of_mem (k.tree.parent r hr)
    · intro z hz hzs r hr _
      rw [hu] at hzs
      rcases (hmem z).mp hz with rfl | hz
      · simp at hzs
      rw [if_neg (hne z hz)] at hzs
      rw [hu]
      rcases (hmem r).mp hr with rfl | hr'
      · rw [if_pos rfl]
        rintro rfl
        simp [hzs, State.Running] at hrun
      · rw [if_neg (hne r hr')]
        exact k.tree.childless z hz hzs r hr' (by simp)
  refine (ku.wakeupProc (p := p) (Finset.mem_insert_self _ _)).mono ?_
  rintro t ⟨q', k', -⟩
  exact ⟨q', k'⟩

theorem reap (k : Inv s q []) (hr : s.Running) (hp : p ∈ s.procs)
    (hz : (s.proc p).state = .zombie) (hi : p ≠ idleproc) (hi' : p ≠ initproc) :
    Inv (s.reap p) q [] := by
  have hq : p ∉ q := fun h => by simpa [hz] using ((k.mem p hp).mp h).1
  have hc : s.current ≠ p := by
    rintro rfl
    simp [State.Running, hz] at hr
  have hmem : ∀ r ∈ (s.reap p).procs, r ∈ s.procs := fun r hr => Finset.mem_of_mem_erase hr
  refine ⟨⟨k.queue.ring, ?_, ?_, k.queue.num, ?_, ?_, k.queue.fifo⟩, ?_,
    ⟨?_, ?_, k.tree.alive, ?_, ?_, ?_⟩⟩
  · intro r hr
    exact k.queue.rq r (hmem r hr)
  · intro r hr hrq
    exact k.queue.link r (hmem r hr) hrq
  · intro r hr
    exact Finset.mem_erase.mpr ⟨fun h => hq (h ▸ hr), k.queue.sub r hr⟩
  · exact (Finset.card_erase_le).trans k.queue.cap
  · intro r hr
    exact k.mem r (hmem r hr)
  · exact Finset.mem_erase.mpr ⟨hi.symm, k.tree.idle⟩
  · exact Finset.mem_erase.mpr ⟨hi'.symm, k.tree.init⟩
  · exact Finset.mem_erase.mpr ⟨hc, k.tree.current⟩
  · intro r hr
    exact Finset.mem_erase.mpr ⟨k.tree.childless p hp hz r (hmem r hr) (by simp),
      k.tree.parent r (hmem r hr)⟩
  · intro z hz hzs r hr hl
    exact k.tree.childless z (hmem z hz) hzs r (hmem r hr) hl

theorem step {op : Op} (k : Inv s q []) (he : s.Enabled op) :
    Sound (fun t => ∃ q', Inv t q' []) (s.exec op) := by
  cases op with
  | fork child => exact k.fork he.1 he.2
  | wakeup p => exact (k.wakeupProc he).mono fun t ⟨q', k', _⟩ => ⟨q', k'⟩
  | schedule =>
    obtain ⟨t, q', ht, k'⟩ := k.schedule
    rw [State.exec, ht]
    exact ⟨q', k'⟩
  | tick expired => exact k.tick expired he
  | sleep w => exact ⟨q, k.sleep w⟩
  | yield =>
    refine ⟨q, (k.setProc ?_ ?_ ?_).1⟩ <;> rfl
  | kill pid => exact k.kill pid
  | exit children =>
    obtain ⟨-, -, hi, hc⟩ := he
    exact k.exit hi children hc
  | wait child =>
    obtain ⟨hr, hp, hz, hi, hi'⟩ := he
    exact ⟨q, k.reap hr hp hz hi hi'⟩

theorem boot : ∃ s, procInit = .ok s ∧ Inv s [initproc] [] := by
  have hring : (⟨id, id⟩ : Links Entry).Ring .runList [] := ⟨⟨rfl, rfl⟩, by simp⟩
  have hinit : (listInit (⟨id, id⟩ : Links Entry) (.runLink initproc)).Ring .runList [] :=
    hring.congr (fun y hy => (listInit_congr (by simp at hy; simp [hy])).1)
      fun y hy => (listInit_congr (by simp at hy; simp [hy])).2
  refine ⟨_, rfl, ⟨?_, ?_, ?_, rfl, ?_, by decide, rfl⟩, ?_, ?_⟩
  · exact listAddBefore_ring hinit (by simp)
  · decide
  · decide
  · decide
  · decide
  · exact ⟨by decide, by decide, by decide, by decide, by decide, by decide⟩

end Inv

/-- The run queue is `q`, and it is as it should be. -/
structure Safe (s : State) (q : List ℕ) : Prop where
  path : s.links.Path .runList (q.map .runLink) .runList
  once : q.Nodup
  mem : ∀ p, p ∈ q ↔ p ∈ s.procs ∧ (s.proc p).state = .runnable ∧ p ≠ s.current ∧ p ≠ idleproc
  rq : ∀ p ∈ q, (s.proc p).onRq = true
  other : ∀ p ∈ s.procs, p ∉ q →
    listEmpty s.links (.runLink p) = true ∧ (s.proc p).onRq = false
  num : s.procNum.toNat = q.length
  fifo : s.enqueued = s.picked ++ q
  total : ∀ op e, s.Enabled op → s.exec op = .error e → e = .wakeupZombie ∨ e = .forkWaiting

theorem Inv.safe {s : State} {q : List ℕ} (k : Inv s q []) : Safe s q := by
  refine ⟨k.queue.ring.path, k.queue.nodup, ?_, ?_, ?_, k.queue.num, k.queue.fifo, ?_⟩
  · intro p
    constructor
    · intro hp
      exact ⟨k.queue.sub p hp, (k.mem p (k.queue.sub p hp)).mp hp⟩
    · rintro ⟨hp, h⟩
      exact (k.mem p hp).mpr h
  · intro p hp
    exact (k.queue.rq p (k.queue.sub p hp)).mpr hp
  · intro p hp hq
    refine ⟨k.queue.link p hp hq, ?_⟩
    simpa [hq] using k.queue.rq p hp
  · intro op e he hex
    have := k.step he
    rwa [hex] at this

/-- In every reachable state the run queue holds exactly the runnable processes other than the
current one and `idleproc`, no assertion of the round robin class fails, and the processes are
picked in the order in which they were enqueued. -/
theorem runQueue_safe :
    ∃ s₀, procInit = .ok s₀ ∧ ∀ ops s,
      Runs (fun s op t => s.Enabled op ∧ s.exec op = .ok t) s₀ ops s → ∃ q, Safe s q := by
  obtain ⟨s₀, h₀, k₀⟩ := Inv.boot
  refine ⟨s₀, h₀, fun ops s hr => ?_⟩
  obtain ⟨q, k⟩ : ∃ q, Inv s q [] := by
    refine hr.invariant (P := fun s => ∃ q, Inv s q []) ?_ ⟨_, k₀⟩
    rintro s op t ⟨q, k⟩ ⟨he, ht⟩
    have := k.step he
    rwa [ht] at this
  exact ⟨q, k.safe⟩

/-- `initproc` is woken after it has marked itself as sleeping and before it calls `schedule`. -/
theorem runQueue_safe_wokenCurrent :
    ∃ s₀ s, procInit = .ok s₀ ∧
      Runs (fun s op t => s.Enabled op ∧ s.exec op = .ok t) s₀
        [.schedule, .sleep wtChild, .wakeup initproc, .schedule] s ∧
      s.enqueued = [initproc, initproc] ∧ ∃ q, Safe s q := by
  obtain ⟨s₀, h₀, h⟩ := runQueue_safe
  have hr : ∃ s, Runs (fun s op t => s.Enabled op ∧ s.exec op = .ok t) s₀
      [.schedule, .sleep wtChild, .wakeup initproc, .schedule] s ∧
      s.enqueued = [initproc, initproc] := by
    obtain rfl := Except.ok.inj h₀
    refine ⟨_, .cons ⟨trivial, rfl⟩ (.cons ⟨?_, rfl⟩ (.cons ⟨?_, rfl⟩
      (.cons ⟨trivial, rfl⟩ (.nil _)))), ?_⟩
    · rfl
    · exact Finset.mem_insert_self initproc {idleproc}
    · rfl
  obtain ⟨s, hs, hq⟩ := hr
  exact ⟨s₀, s, h₀, hs, hq, h _ s hs⟩

end UCore.Sched
