import Mathlib.Data.Set.Card
import UCore.Library.Counting
import UCore.Library.Run
import UCore.Sync.Monitor

/-! # Safety of monitors

One baton exists at any time: it is the value of one of the semaphores, or a process holds it
inside the monitor, or it is on its way to a released process. Every statement moves it or
keeps it, which gives mutual exclusion and the priority of signalled processes.
-/

namespace UCore.Monitor

open Library Sync

/-- Where the baton is. -/
inductive Token
  | free (i : SemId)
  | owner (p : ℕ)
  | handed (p : ℕ)
deriving DecidableEq

structure Baton (s : State) (T : Token) : Prop where
  value : ∀ i, (s.sem i).value = if T = .free i then 1 else 0
  empty : ∀ i, T = .free i → (s.sem i).queue = []
  queue : ∀ i p, p ∈ (s.sem i).queue ↔ (s.pc p).waitsOn = some i ∧ s.awake p = false
  nodup : ∀ i, (s.sem i).queue.Nodup
  inside : ∀ p, (s.pc p).inside = true ↔ T = .owner p
  awake : ∀ p, s.awake p = true ↔ T = .handed p
  handed : ∀ p, T = .handed p → (s.pc p).waitsOn ≠ none

theorem Pc.waitsOn_of_inside {x : Pc} (h : x.inside = true) : x.waitsOn = none := by
  cases x <;> simp_all [Pc.inside, Pc.waitsOn]

@[simp] theorem Pc.inSignal_outside : Pc.outside.inSignal = false := rfl

@[simp] theorem Pc.inWait_outside (c : ℕ) : Pc.outside.inWait c = false := rfl

namespace Baton

variable {s t : State} {T : Token} {i : SemId} {p : ℕ} {x done blocked : Pc}

theorem stay (b : Baton s T) (hp : (s.pc p).inside = true) (hx : x.inside = true)
    (hs : t.sem = s.sem) (hc : t.pc = Function.update s.pc p x) (ha : t.awake = s.awake) :
    Baton t T := by
  have hw : ∀ q, (t.pc q).waitsOn = (s.pc q).waitsOn := by
    intro q
    rcases eq_or_ne q p with rfl | hq
    · simp [hc, Pc.waitsOn_of_inside hp, Pc.waitsOn_of_inside hx]
    · simp [hc, hq]
  refine ⟨?_, ?_, ?_, ?_, ?_, ?_, ?_⟩
  · rw [hs]; exact b.value
  · rw [hs]; exact b.empty
  · intro i q
    rw [hs, hw, ha]
    exact b.queue i q
  · rw [hs]; exact b.nodup
  · intro q
    rw [← b.inside, hc]
    rcases eq_or_ne q p with rfl | hq
    · simp [hp, hx]
    · simp [hq]
  · rw [ha]; exact b.awake
  · intro q
    rw [hw]
    exact b.handed q

/-- The owner signals a semaphore and is no longer inside. -/
theorem up (b : Baton s T) (hp : (s.pc p).inside = true) (hx : x.inside = false)
    (hw : x.waitsOn = none) :
    Baton ((s.up i).goto p x)
      (match (s.sem i).queue.head? with | none => .free i | some q => .handed q) := by
  obtain rfl := (b.inside p).mp hp
  have hv : ∀ j, (s.sem j).value = 0 := fun j => by simpa using b.value j
  have ha : ∀ q, s.awake q = false := fun q => by
    simpa using (b.awake q).not.mpr (by simp)
  have hin : ∀ q, q ≠ p → (s.pc q).inside = false := fun q hq => by
    simpa using (b.inside q).not.mpr (by simp [Ne.symm hq])
  have hwp := Pc.waitsOn_of_inside hp
  have hq' : ∀ j q, q ∈ (s.sem j).queue ↔ (s.pc q).waitsOn = some j := by
    intro j q
    rw [b.queue j q, ha q]
    simp
  have hw' : ∀ q, (((s.up i).goto p x).pc q).waitsOn = (s.pc q).waitsOn := by
    intro q
    rcases eq_or_ne q p with rfl | hqp
    · simp [State.goto, hw, hwp]
    · simp [State.goto, State.up, hqp]
  have hin' : ∀ q, (((s.up i).goto p x).pc q).inside = false := by
    intro q
    rcases eq_or_ne q p with rfl | hqp
    · simp [State.goto, hx]
    · simpa [State.goto, State.up, hqp] using hin q hqp
  rcases hq : (s.sem i).queue with _ | ⟨r, rs⟩
  · have hu := Semaphore.up_nil hq
    refine ⟨?_, ?_, ?_, ?_, ?_, ?_, ?_⟩
    · intro j
      rcases eq_or_ne j i with rfl | hj
      · simp [State.goto, State.up, hu, hv]
      · simp [State.goto, State.up, hj, hj.symm, hv]
    · intro j hj
      obtain rfl : i = j := by simpa using hj
      simp [State.goto, State.up, hu, hq]
    · intro j q
      rw [hw']
      rcases eq_or_ne j i with rfl | hj
      · simp [State.goto, State.up, hu, ha, ← hq']
      · simp [State.goto, State.up, hu, hj, ha, hq']
    · intro j
      rcases eq_or_ne j i with rfl | hj
      · simp [State.goto, State.up, hu, hq]
      · simpa [State.goto, State.up, hj] using b.nodup j
    · intro q
      simp [hin']
    · intro q
      simp [State.goto, State.up, hu, ha]
    · intro q hqh
      simp at hqh
  · have hu := Semaphore.up_cons hq
    have hnd : r ∉ rs ∧ rs.Nodup := by simpa [hq] using b.nodup i
    have hr : (s.pc r).waitsOn = some i := (hq' i r).mp (by simp [hq])
    refine ⟨?_, ?_, ?_, ?_, ?_, ?_, ?_⟩
    · intro j
      rcases eq_or_ne j i with rfl | hj
      · simp [State.goto, State.up, hu, hv]
      · simp [State.goto, State.up, hj, hv]
    · intro j hj
      simp at hj
    · intro j q
      rw [hw']
      rcases eq_or_ne q r with rfl | hqr
      · rcases eq_or_ne j i with rfl | hj
        · simp [State.goto, State.up, hu, hnd]
        · simp [State.goto, State.up, hu, hj, hq', hr, hj.symm]
      · rcases eq_or_ne j i with rfl | hj
        · have := hq' j q
          simp only [hq, List.mem_cons, hqr, false_or] at this
          simp [State.goto, State.up, hu, hqr, ha, this]
        · simp [State.goto, State.up, hu, hj, hqr, ha, hq']
    · intro j
      rcases eq_or_ne j i with rfl | hj
      · simpa [State.goto, State.up, hu] using hnd.2
      · simpa [State.goto, State.up, hj] using b.nodup j
    · intro q
      simp [hin']
    · intro q
      rcases eq_or_ne q r with rfl | hqr
      · simp [State.goto, State.up, hu]
      · simp [State.goto, State.up, hu, hqr, hqr.symm, ha]
    · intro q hqh
      obtain rfl : r = q := by simpa using hqh
      rw [hw', hr]
      simp

/-- A process outside calls `down`: it takes the baton if the semaphore has it, else it sleeps. -/
theorem down (b : Baton s T) (hp : (s.pc p).inside = false) (hw : (s.pc p).waitsOn = none)
    (hd : done.inside = true) (hb : blocked.inside = false) (hbw : blocked.waitsOn = some i) :
    Baton (s.down i p done blocked) (if T = .free i then .owner p else T) := by
  have hdw := Pc.waitsOn_of_inside hd
  have hap : s.awake p = false := by
    by_contra h
    exact b.handed p ((b.awake p).mp (by simpa using h)) hw
  have hT : T ≠ .owner p := fun h => by simp [(b.inside p).mpr h] at hp
  have hpq : ∀ j, p ∉ (s.sem j).queue := fun j => by simp [b.queue, hw]
  by_cases hf : T = .free i
  · subst hf
    have hv : (s.sem i).value = 1 := by simpa using b.value i
    have hs : (s.sem i).down p = (true, { s.sem i with value := (s.sem i).value - 1 }) := by
      simp [Semaphore.down, hv]
    have hT' : ∀ q, Token.free i ≠ .owner q := by simp
    rw [if_pos rfl]
    refine ⟨?_, ?_, ?_, ?_, ?_, ?_, ?_⟩
    · intro j
      rcases eq_or_ne j i with rfl | hj
      · simp [State.down, State.goto, hs, hv]
      · simpa [State.down, State.goto, hj, hj.symm] using b.value j
    · intro j hj
      simp at hj
    · intro j q
      rcases eq_or_ne q p with rfl | hq
      · rcases eq_or_ne j i with rfl | hj
        · simp [State.down, State.goto, hs, hdw, hpq]
        · simp [State.down, State.goto, hs, hdw, hpq, hj]
      · have := b.queue j q
        rcases eq_or_ne j i with rfl | hj
        · simpa [State.down, State.goto, hs, hq] using this
        · simpa [State.down, State.goto, hj, hq] using this
    · intro j
      rcases eq_or_ne j i with rfl | hj
      · simpa [State.down, State.goto, hs] using b.nodup j
      · simpa [State.down, State.goto, hj] using b.nodup j
    · intro q
      rcases eq_or_ne q p with rfl | hq
      · simp [State.down, State.goto, hs, hd]
      · simpa [State.down, State.goto, hq, hq.symm] using b.inside q
    · intro q
      simpa [State.down, State.goto] using b.awake q
    · intro q hq
      simp at hq
  · have hv : (s.sem i).value = 0 := by simpa [hf] using b.value i
    have hs : (s.sem i).down p = (false, { s.sem i with queue := (s.sem i).queue ++ [p] }) := by
      simp [Semaphore.down, hv]
    rw [if_neg hf]
    refine ⟨?_, ?_, ?_, ?_, ?_, ?_, ?_⟩
    · intro j
      rcases eq_or_ne j i with rfl | hj
      · simpa [State.down, State.goto, hs] using b.value j
      · simpa [State.down, State.goto, hj] using b.value j
    · intro j hj
      have hji : j ≠ i := by
        rintro rfl
        exact hf hj
      simpa [State.down, State.goto, hji] using b.empty j hj
    · intro j q
      have := b.queue j q
      rcases eq_or_ne q p with rfl | hq
      · rcases eq_or_ne j i with rfl | hj
        · simp [State.down, State.goto, hs, hbw, hap]
        · simp [State.down, State.goto, hs, hbw, hpq, hj, hj.symm]
      · rcases eq_or_ne j i with rfl | hj
        · simpa [State.down, State.goto, hs, hq] using this
        · simpa [State.down, State.goto, hj, hq] using this
    · intro j
      rcases eq_or_ne j i with rfl | hj
      · simpa [State.down, State.goto, hs, List.nodup_append] using
          ⟨b.nodup j, fun q hq => fun h => hpq j (h ▸ hq)⟩
      · simpa [State.down, State.goto, hj] using b.nodup j
    · intro q
      rcases eq_or_ne q p with rfl | hq
      · simp [State.down, State.goto, hs, hb, hT]
      · simpa [State.down, State.goto, hq] using b.inside q
    · intro q
      simpa [State.down, State.goto] using b.awake q
    · intro q hq
      rcases eq_or_ne q p with rfl | hqp
      · simp [State.down, State.goto, hs, hbw]
      · simpa [State.down, State.goto, hqp] using b.handed q hq

/-- A released process runs and holds the baton. -/
theorem wake (b : Baton s T) (ht : s.wake p done = some t) (hd : done.inside = true) :
    T = .handed p ∧ Baton t (.owner p) := by
  obtain ⟨ha, rfl⟩ : s.awake p = true ∧
      { s with awake := Function.update s.awake p false }.goto p done = t := by
    simpa [State.wake] using ht
  obtain rfl := (b.awake p).mp ha
  have hin : ∀ q, (s.pc q).inside = false := fun q => by
    simpa using (b.inside q).not.mpr (by simp)
  have hdw := Pc.waitsOn_of_inside hd
  have haw : ∀ q, q ≠ p → s.awake q = false := fun q hq => by
    simpa using (b.awake q).not.mpr (by simp [hq.symm])
  refine ⟨rfl, ?_, ?_, ?_, b.nodup, ?_, ?_, ?_⟩
  · intro j
    simpa [State.goto] using b.value j
  · intro j hj
    simp at hj
  · intro j q
    rcases eq_or_ne q p with rfl | hq
    · have := b.queue j q
      simp [ha] at this
      simp [State.goto, hdw, this]
    · simpa [State.goto, hq] using b.queue j q
  · intro q
    rcases eq_or_ne q p with rfl | hq
    · simp [State.goto, hd]
    · simp [State.goto, hq, hq.symm, hin]
  · intro q
    rcases eq_or_ne q p with rfl | hq
    · simp [State.goto]
    · simp [State.goto, hq, haw]
  · intro q hq
    simp at hq

end Baton

/-- The counters are the numbers of processes in the windows of `cond_signal` and `cond_wait`. -/
structure Counts (s : State) : Prop where
  procs : s.procs.card ≤ maxProcess
  outside : ∀ p, p ∉ s.procs → s.pc p = .outside
  next : s.nextCount.toInt = (s.procs.filter fun p => (s.pc p).inSignal = true).card
  wait : ∀ c, (s.count c).toInt = (s.procs.filter fun p => (s.pc p).inWait c = true).card

namespace Counts

variable {s t : State} {p : ℕ} {x : Pc}

theorem move (k : Counts s) (hp : p ∈ s.procs) (ht : t.procs = s.procs)
    (hpc : t.pc = Function.update s.pc p x)
    (hn : t.nextCount.toInt + (if (s.pc p).inSignal = true then 1 else 0) =
      s.nextCount.toInt + if x.inSignal = true then 1 else 0)
    (hc : ∀ c, (t.count c).toInt + (if (s.pc p).inWait c = true then 1 else 0) =
      (s.count c).toInt + if x.inWait c = true then 1 else 0) : Counts t := by
  refine ⟨ht ▸ k.procs, ?_, ?_, ?_⟩
  · intro q hq
    rw [ht] at hq
    have hqp : q ≠ p := fun h => hq (h ▸ hp)
    simpa [hpc, hqp] using k.outside q hq
  · have h := card_filter_update (f := s.pc) (b := x) (fun y => y.inSignal = true) hp
    have := k.next
    have h := congrArg (Nat.cast (R := ℤ)) h
    push_cast at h
    simp only [ht, hpc]
    omega
  · intro c
    have h := card_filter_update (f := s.pc) (b := x) (fun y => y.inWait c = true) hp
    have := k.wait c
    have := hc c
    have h := congrArg (Nat.cast (R := ℤ)) h
    push_cast at h
    simp only [ht, hpc]
    omega

theorem ne_maxValue {v : Int32} {n : ℕ} (hv : v.toInt = n) (hn : n ≤ maxProcess) :
    v ≠ Int32.maxValue := by
  rintro rfl
  have h : (2147483647 : ℤ) = n := hv
  unfold maxProcess at hn
  omega

theorem next_succ (k : Counts s) : (s.nextCount + 1).toInt = s.nextCount.toInt + 1 :=
  Semaphore.toInt_succ (ne_maxValue k.next ((Finset.card_filter_le _ _).trans k.procs))

theorem count_succ (k : Counts s) (c : ℕ) : (s.count c + 1).toInt = (s.count c).toInt + 1 :=
  Semaphore.toInt_succ (ne_maxValue (k.wait c) ((Finset.card_filter_le _ _).trans k.procs))

theorem next_pred (k : Counts s) (hp : p ∈ s.procs) (h : (s.pc p).inSignal = true) :
    (s.nextCount - 1).toInt = s.nextCount.toInt - 1 := by
  apply Semaphore.toInt_pred
  rw [Semaphore.pos_iff, k.next]
  exact_mod_cast Finset.card_pos.mpr ⟨p, by simp [hp, h]⟩

theorem count_pred (k : Counts s) {c : ℕ} (hp : p ∈ s.procs) (h : (s.pc p).inWait c = true) :
    (s.count c - 1).toInt = (s.count c).toInt - 1 := by
  apply Semaphore.toInt_pred
  rw [Semaphore.pos_iff, k.wait]
  exact_mod_cast Finset.card_pos.mpr ⟨p, by simp [hp, h]⟩

theorem fork (k : Counts s) {q : ℕ} (hq : q ∉ s.procs) (hc : s.procs.card < maxProcess) :
    Counts { s with procs := insert q s.procs } := by
  have ho := k.outside q hq
  refine ⟨?_, ?_, ?_, ?_⟩
  · simpa [Finset.card_insert_of_notMem hq] using hc
  · intro p hp
    simp only [Finset.mem_insert, not_or] at hp
    exact k.outside p hp.2
  · simpa [Finset.filter_insert, ho] using k.next
  · intro c
    simpa [Finset.filter_insert, ho] using k.wait c

theorem exit (k : Counts s) (ho : s.pc p = .outside) :
    Counts { s with procs := s.procs.erase p } := by
  refine ⟨(Finset.card_erase_le).trans k.procs, ?_, ?_, ?_⟩
  · intro q hq
    rcases eq_or_ne q p with rfl | hqp
    · exact ho
    · exact k.outside q fun h => hq (Finset.mem_erase.mpr ⟨hqp, h⟩)
  · rw [k.next, Finset.filter_erase, Finset.erase_eq_of_notMem (by simp [ho])]
  · intro c
    rw [k.wait, Finset.filter_erase, Finset.erase_eq_of_notMem (by simp [ho])]

end Counts

/-- A process that has found `count > 0` keeps that fact until it signals. -/
structure Inv (s : State) (T : Token) : Prop where
  baton : Baton s T
  counts : Counts s
  armed : ∀ p c, s.pc p = .signalInc c ∨ s.pc p = .signalUp c → 0 < s.count c

/-- The semaphore whose `down` is the next statement. -/
def Pc.downs : Pc → Option SemId
  | outside => some .mutex
  | waitDown c => some (.cv c)
  | signalDown _ => some .next
  | _ => none

/-- How a step of process `p` moves the baton. -/
inductive Shift (s : State) (p : ℕ) (T T' : Token) : Prop
  | keep (h : T' = T)
  | use (h : T = .owner p)
  | take (i : SemId) (h : T = .free i) (h' : T' = .owner p) (hp : (s.pc p).downs = some i)
  | run (h : T = .handed p) (h' : T' = .owner p)

namespace Inv

variable {s t : State} {T : Token} {p : ℕ} {x y done blocked : Pc} {i : SemId}

theorem armed_same (k : Inv s T) (hc : t.count = s.count) (hpc : t.pc = Function.update s.pc p x)
    (hx : ∀ c, x = .signalInc c ∨ x = .signalUp c → 0 < s.count c) :
    ∀ q c, t.pc q = .signalInc c ∨ t.pc q = .signalUp c → 0 < t.count c := by
  intro q c hq
  rw [hc]
  rw [hpc] at hq
  rcases eq_or_ne q p with rfl | hqp
  · exact hx c (by simpa using hq)
  · exact k.armed q c (by simpa [hqp] using hq)

theorem armed_inside (k : Inv s T) (hp : (s.pc p).inside = true)
    (hpc : t.pc = Function.update s.pc p x) (hx : ∀ c, x ≠ .signalInc c ∧ x ≠ .signalUp c) :
    ∀ q c, t.pc q = .signalInc c ∨ t.pc q = .signalUp c → 0 < t.count c := by
  intro q c hq
  exfalso
  rw [hpc] at hq
  rcases eq_or_ne q p with rfl | hqp
  · simp [hx c] at hq
  · have hq' : (s.pc q).inside = true := by
      rcases hq with hq | hq
      · rw [Function.update_of_ne hqp] at hq
        simp [hq, Pc.inside]
      · rw [Function.update_of_ne hqp] at hq
        simp [hq, Pc.inside]
    have h₁ := (k.baton.inside q).mp hq'
    rw [(k.baton.inside p).mp hp] at h₁
    exact hqp (by simpa using h₁.symm)

theorem stay (k : Inv s T) (hp : p ∈ s.procs) (hy : s.pc p = y) (hi : y.inside = true)
    (hx : x.inside = true) (hs : x.inSignal = y.inSignal) (hw : ∀ c, x.inWait c = y.inWait c)
    (ha : ∀ c, x = .signalInc c ∨ x = .signalUp c → 0 < s.count c) :
    ∃ T', Inv (s.goto p x) T' ∧ Shift s p T T' := by
  subst hy
  exact ⟨T, ⟨k.baton.stay hi hx rfl rfl rfl, k.counts.move hp rfl rfl (by simp [hs, State.goto])
    (by simp [hw, State.goto]), k.armed_same rfl rfl ha⟩, .keep rfl⟩

theorem count (k : Inv s T) (hp : p ∈ s.procs) (hy : s.pc p = y) (hi : y.inside = true)
    (hx : x.inside = true) (hpr : t.procs = s.procs) (hs : t.sem = s.sem)
    (hpc : t.pc = Function.update s.pc p x) (ha : t.awake = s.awake)
    (hn : t.nextCount.toInt + (if y.inSignal = true then 1 else 0) =
      s.nextCount.toInt + if x.inSignal = true then 1 else 0)
    (hc : ∀ c, (t.count c).toInt + (if y.inWait c = true then 1 else 0) =
      (s.count c).toInt + if x.inWait c = true then 1 else 0)
    (har : ∀ q c, t.pc q = .signalInc c ∨ t.pc q = .signalUp c → 0 < t.count c) :
    ∃ T', Inv t T' ∧ Shift s p T T' := by
  subst hy
  exact ⟨T, ⟨k.baton.stay hi hx hs hpc ha, k.counts.move hp hpr hpc hn hc, har⟩, .keep rfl⟩

theorem up (k : Inv s T) (hp : p ∈ s.procs) (hy : s.pc p = y) (hi : y.inside = true)
    (hx : x.inside = false) (hn : x.waitsOn = none) (hs : x.inSignal = y.inSignal)
    (hw : ∀ c, x.inWait c = y.inWait c) :
    ∃ T', Inv ((s.up i).goto p x) T' ∧ Shift s p T T' := by
  subst hy
  refine ⟨_, ⟨k.baton.up hi hx hn, k.counts.move hp rfl rfl (by simp [hs, State.goto, State.up])
    (by simp [hw, State.goto, State.up]), k.armed_same rfl rfl ?_⟩,
    .use ((k.baton.inside p).mp hi)⟩
  rintro c (rfl | rfl) <;> simp [Pc.inside] at hx

theorem down (k : Inv s T) (hp : p ∈ s.procs) (hy : s.pc p = y) (hi : y.downs = some i)
    (hd : done.inside = true) (hb : blocked.inside = false) (hbw : blocked.waitsOn = some i)
    (hs : done.inSignal = y.inSignal ∧ blocked.inSignal = y.inSignal)
    (hw : ∀ c, done.inWait c = y.inWait c ∧ blocked.inWait c = y.inWait c)
    (ha : ∀ c, done ≠ .signalInc c ∧ done ≠ .signalUp c) :
    ∃ T', Inv (s.down i p done blocked) T' ∧ Shift s p T T' := by
  subst hy
  have hpi : (s.pc p).inside = false ∧ (s.pc p).waitsOn = none := by
    revert hi
    cases s.pc p <;> simp [Pc.downs, Pc.inside, Pc.waitsOn]
  refine ⟨_, ⟨k.baton.down hpi.1 hpi.2 hd hb hbw, k.counts.move hp rfl rfl ?_ ?_,
    k.armed_same rfl rfl ?_⟩, ?_⟩
  · have hy : (if ((s.sem i).down p).1 = true then done else blocked).inSignal =
        (s.pc p).inSignal := by split <;> simp [hs]
    simp [hy, State.goto, State.down]
  · intro c
    have hy : (if ((s.sem i).down p).1 = true then done else blocked).inWait c =
        (s.pc p).inWait c := by split <;> simp [hw]
    simp [hy, State.goto, State.down]
  · intro c hc
    exfalso
    split at hc
    · simp [ha c] at hc
    · rcases hc with rfl | rfl <;> simp [Pc.inside] at hb
  · split
    · exact .take i ‹_› rfl hi
    · exact .keep rfl

theorem wake (k : Inv s T) (hp : p ∈ s.procs) (hy : s.pc p = y) (ht : s.wake p done = some t)
    (hd : done.inside = true) (hs : done.inSignal = y.inSignal)
    (hw : ∀ c, done.inWait c = y.inWait c)
    (ha : ∀ c, done ≠ .signalInc c ∧ done ≠ .signalUp c) :
    ∃ T', Inv t T' ∧ Shift s p T T' := by
  subst hy
  obtain ⟨hT, hb⟩ := k.baton.wake ht hd
  obtain ⟨-, rfl⟩ : s.awake p = true ∧
      { s with awake := Function.update s.awake p false }.goto p done = t := by
    simpa [State.wake] using ht
  exact ⟨_, ⟨hb, k.counts.move hp rfl rfl (by simp [hs, State.goto])
    (by simp [hw, State.goto]), k.armed_same rfl rfl (fun c hc => by simp [ha c] at hc)⟩,
    .run hT rfl⟩

/-- One statement of a process inside one of the routines. -/
theorem advance (k : Inv s T) (hp : p ∈ s.procs) (ht : s.advance p = some t) :
    ∃ T', Inv t T' ∧ Shift s p T T' := by
  unfold State.advance at ht
  cases hx : s.pc p with
  | outside | body => simp [hx] at ht
  | enterBlocked =>
    rw [hx] at ht
    exact k.wake hp hx ht rfl rfl (fun _ => rfl) (by simp)
  | waitBlocked c =>
    rw [hx] at ht
    exact k.wake hp hx ht rfl rfl (fun _ => rfl) (by simp)
  | signalBlocked c =>
    rw [hx] at ht
    exact k.wake hp hx ht rfl rfl (fun _ => rfl) (by simp)
  | waitTest c =>
    obtain rfl : s.goto p (if 0 < s.nextCount then .waitUpNext c else .waitUpMutex c) = t := by
      simpa [hx] using ht
    apply k.stay hp hx rfl
    all_goals split <;> simp [Pc.inside, Pc.inSignal, Pc.inWait]
  | waitUpNext c =>
    obtain rfl : (s.up .next).goto p (.waitDown c) = t := by simpa [hx] using ht
    exact k.up hp hx rfl rfl rfl rfl fun _ => rfl
  | waitUpMutex c =>
    obtain rfl : (s.up .mutex).goto p (.waitDown c) = t := by simpa [hx] using ht
    exact k.up hp hx rfl rfl rfl rfl fun _ => rfl
  | signalUp c =>
    obtain rfl : (s.up (.cv c)).goto p (.signalDown c) = t := by simpa [hx] using ht
    exact k.up hp hx rfl rfl rfl rfl fun _ => rfl
  | leaveUpNext =>
    obtain rfl : (s.up .next).goto p .outside = t := by simpa [hx] using ht
    exact k.up hp hx rfl rfl rfl rfl fun _ => rfl
  | leaveUpMutex =>
    obtain rfl : (s.up .mutex).goto p .outside = t := by simpa [hx] using ht
    exact k.up hp hx rfl rfl rfl rfl fun _ => rfl
  | waitDown c =>
    obtain rfl : s.down (.cv c) p (.waitDec c) (.waitBlocked c) = t := by simpa [hx] using ht
    exact k.down hp hx rfl rfl rfl rfl ⟨rfl, rfl⟩ (fun _ => ⟨rfl, rfl⟩) (by simp)
  | signalDown c =>
    obtain rfl : s.down .next p (.signalDec c) (.signalBlocked c) = t := by simpa [hx] using ht
    exact k.down hp hx rfl rfl rfl rfl ⟨rfl, rfl⟩ (fun _ => ⟨rfl, rfl⟩) (by simp)
  | signalInc c =>
    obtain rfl : { s with nextCount := s.nextCount + 1 }.goto p (.signalUp c) = t := by
      simpa [hx] using ht
    refine k.count hp hx rfl rfl rfl rfl rfl rfl ?_ ?_ ?_
    · simp [Pc.inSignal, State.goto, k.counts.next_succ]
    · simp [Pc.inWait, State.goto]
    · refine k.armed_same rfl rfl fun d hd => ?_
      obtain rfl : c = d := by simpa using hd
      exact k.armed p c (.inl hx)
  | signalDec c =>
    obtain rfl : { s with nextCount := s.nextCount - 1 }.goto p .body = t := by
      simpa [hx] using ht
    refine k.count hp hx rfl rfl rfl rfl rfl rfl ?_ ?_ (k.armed_same rfl rfl (by simp))
    · have := k.counts.next_pred hp (by rw [hx]; rfl)
      simp [Pc.inSignal, State.goto, this]
    · simp [Pc.inWait, State.goto]
  | waitDec c =>
    obtain rfl : (s.setCount c (s.count c - 1)).goto p .body = t := by simpa [hx] using ht
    refine k.count hp hx rfl rfl rfl rfl rfl rfl ?_ ?_
      (k.armed_inside (by rw [hx]; rfl) rfl (by simp))
    · simp [Pc.inSignal, State.goto, State.setCount]
    · intro d
      rcases eq_or_ne d c with rfl | hd
      · have := k.counts.count_pred (c := d) hp (by simp [hx, Pc.inWait])
        simp [Pc.inWait, State.goto, State.setCount, this]
      · simp [Pc.inWait, State.goto, State.setCount, hd]

end Inv

def Op.proc : Op → ℕ
  | .enter p | .condWait p _ | .condSignal p _ | .leave p | .advance p | .fork p _ | .exit p => p

namespace Inv

variable {s t : State} {T : Token} {op : Op}

theorem step (k : Inv s T) (ht : s.step op = some t) : ∃ T', Inv t T' ∧ Shift s op.proc T T' := by
  cases op with
  | enter p =>
    obtain ⟨⟨hp, hx⟩, rfl⟩ : (p ∈ s.procs ∧ s.pc p = .outside) ∧
        s.down .mutex p .body .enterBlocked = t := by simpa [State.step] using ht
    exact k.down hp hx rfl rfl rfl rfl ⟨rfl, rfl⟩ (fun _ => ⟨rfl, rfl⟩) (by simp)
  | condWait p c =>
    obtain ⟨⟨hp, hx⟩, rfl⟩ : (p ∈ s.procs ∧ s.pc p = .body) ∧
        (s.setCount c (s.count c + 1)).goto p (.waitTest c) = t := by simpa [State.step] using ht
    refine k.count hp hx rfl rfl rfl rfl rfl rfl ?_ ?_
      (k.armed_inside (by rw [hx]; rfl) rfl (by simp))
    · simp [Pc.inSignal, State.goto, State.setCount]
    · intro d
      rcases eq_or_ne d c with rfl | hd
      · simp [Pc.inWait, State.goto, State.setCount, k.counts.count_succ]
      · simp [Pc.inWait, State.goto, State.setCount, hd]
  | condSignal p c =>
    obtain ⟨⟨hp, hx⟩, rfl⟩ : (p ∈ s.procs ∧ s.pc p = .body) ∧
        (if 0 < s.count c then s.goto p (.signalInc c) else s) = t := by
      simpa [State.step] using ht
    split
    · refine k.stay hp hx rfl rfl rfl (fun _ => rfl) ?_
      intro d hd
      obtain rfl : c = d := by simpa using hd
      assumption
    · exact ⟨T, k, .keep rfl⟩
  | leave p =>
    obtain ⟨⟨hp, hx⟩, rfl⟩ : (p ∈ s.procs ∧ s.pc p = .body) ∧
        s.goto p (if 0 < s.nextCount then .leaveUpNext else .leaveUpMutex) = t := by
      simpa [State.step] using ht
    apply k.stay hp hx rfl
    all_goals split <;> simp [Pc.inside, Pc.inSignal, Pc.inWait]
  | advance p =>
    obtain ⟨hp, ht⟩ : p ∈ s.procs ∧ s.advance p = some t := by simpa [State.step] using ht
    exact k.advance hp ht
  | fork p q =>
    obtain ⟨⟨-, hq⟩, rfl⟩ : (p ∈ s.procs ∧ q ∉ s.procs) ∧
        (if s.procs.card < maxProcess then { s with procs := insert q s.procs } else s) = t := by
      simpa [State.step] using ht
    split
    · exact ⟨T, ⟨⟨k.baton.value, k.baton.empty, k.baton.queue, k.baton.nodup, k.baton.inside,
        k.baton.awake, k.baton.handed⟩, k.counts.fork hq ‹_›, k.armed⟩, .keep rfl⟩
    · exact ⟨T, k, .keep rfl⟩
  | exit p =>
    obtain ⟨⟨-, hx⟩, rfl⟩ : (p ∈ s.procs ∧ s.pc p = .outside) ∧
        { s with procs := s.procs.erase p } = t := by simpa [State.step] using ht
    exact ⟨T, ⟨⟨k.baton.value, k.baton.empty, k.baton.queue, k.baton.nodup, k.baton.inside,
      k.baton.awake, k.baton.handed⟩, k.counts.exit hx, k.armed⟩, .keep rfl⟩

theorem init : Inv monitorInit (.free .mutex) := by
  refine ⟨⟨?_, ?_, ?_, ?_, ?_, ?_, ?_⟩, ⟨?_, ?_, ?_, ?_⟩, ?_⟩
  · intro i
    cases i <;> simp [monitorInit]
  · intro i _
    cases i <;> rfl
  · intro i p
    cases i <;> simp [monitorInit, Pc.waitsOn]
  · intro i
    cases i <;> simp [monitorInit]
  all_goals simp [monitorInit, Pc.inside, maxProcess]

end Inv

/-- Some process owns the monitor, or the baton is on its way through `next` or a condition
variable's semaphore. -/
def State.Occupied (s : State) : Prop :=
  (∃ p, (s.pc p).inside = true ∨ s.pc p = .enterBlocked ∧ s.awake p = true) ∨
  (0 < (s.sem .next).value ∨ ∃ p c, s.pc p = .signalBlocked c ∧ s.awake p = true) ∨
  ∃ c, 0 < (s.sem (.cv c)).value ∨ ∃ p, s.pc p = .waitBlocked c ∧ s.awake p = true

structure Safe (s : State) : Prop where
  exclusive : ∀ p q, (s.pc p).inside = true → (s.pc q).inside = true → p = q
  finite : { p | s.pc p ≠ .outside }.Finite
  next : s.nextCount.toInt = { p | (s.pc p).inSignal = true }.ncard
  wait : ∀ c, (s.count c).toInt = { p | (s.pc p).inWait c = true }.ncard
  mutex : ∀ [Decidable s.Occupied], (s.sem .mutex).value.toInt + (if s.Occupied then 1 else 0) = 1

namespace Inv

variable {s t : State} {T : Token} {op : Op}

theorem ncard_eq (k : Inv s T) (f : Pc → Bool) (hf : f .outside = false) :
    { p | f (s.pc p) = true }.ncard = (s.procs.filter fun p => f (s.pc p) = true).card := by
  rw [← Set.ncard_coe_finset]
  congr 1
  ext p
  simp only [Set.mem_ofPred_eq, Finset.coe_filter]
  refine ⟨fun h => ⟨?_, h⟩, And.right⟩
  by_contra hp
  rw [k.counts.outside p hp, hf] at h
  cases h

theorem occupied_iff (k : Inv s T) : s.Occupied ↔ T ≠ .free .mutex := by
  have hv : ∀ i, 0 < (s.sem i).value ↔ T = .free i := by
    intro i
    rw [k.baton.value i]
    split <;> simp [*]
  have hw : ∀ p, s.awake p = true → s.pc p = .enterBlocked ∨ (∃ c, s.pc p = .signalBlocked c) ∨
      ∃ c, s.pc p = .waitBlocked c := by
    intro p hp
    have := k.baton.handed p ((k.baton.awake p).mp hp)
    revert this
    cases s.pc p <;> simp [Pc.waitsOn]
  constructor
  · rintro (⟨p, h | ⟨-, h⟩⟩ | (h | ⟨p, c, -, h⟩) | ⟨c, h | ⟨p, -, h⟩⟩)
    · simp [(k.baton.inside p).mp h]
    · simp [(k.baton.awake p).mp h]
    · simp [(hv _).mp h]
    · simp [(k.baton.awake p).mp h]
    · simp [(hv _).mp h]
    · simp [(k.baton.awake p).mp h]
  · intro hT
    cases T with
    | free i =>
      cases i with
      | mutex => exact absurd rfl hT
      | next => exact .inr (.inl (.inl ((hv _).mpr rfl)))
      | cv c => exact .inr (.inr ⟨c, .inl ((hv _).mpr rfl)⟩)
    | owner p => exact .inl ⟨p, .inl ((k.baton.inside p).mpr rfl)⟩
    | handed p =>
      have ha := (k.baton.awake p).mpr rfl
      rcases hw p ha with h | ⟨c, h⟩ | ⟨c, h⟩
      · exact .inl ⟨p, .inr ⟨h, ha⟩⟩
      · exact .inr (.inl (.inr ⟨p, c, h, ha⟩))
      · exact .inr (.inr ⟨c, .inr ⟨p, h, ha⟩⟩)

theorem safe (k : Inv s T) : Safe s := by
  refine ⟨?_, ?_, ?_, ?_, ?_⟩
  · intro p q hp hq
    have h := (k.baton.inside p).mp hp
    rw [(k.baton.inside q).mp hq] at h
    simpa using h.symm
  · refine s.procs.finite_toSet.subset fun p hp => ?_
    by_contra h
    exact hp (k.counts.outside p h)
  · rw [k.ncard_eq _ rfl]
    exact k.counts.next
  · intro c
    rw [k.ncard_eq _ rfl]
    exact k.counts.wait c
  · intro _
    simp only [k.occupied_iff, k.baton.value]
    by_cases hT : T = .free .mutex <;> simp [hT]

end Inv

/-- A process that waits on `c` passes the `down` of `cond_wait`. -/
def Passes (c r : ℕ) (x y : State) : Prop :=
  (x.pc r = .waitDown c ∨ x.pc r = .waitBlocked c) ∧ (y.pc r).inside = true

/-- The signalled waiter of `c` runs: the released process if the signal released one, else the
first to pass. -/
def Resumes (c : ℕ) (released : Option ℕ) (x y : State) : Prop :=
  ∃ r, Passes c r x y ∧ ∀ q, released = some q → r = q

def Enters (r : ℕ) (x y : State) : Prop :=
  (x.pc r = .outside ∨ x.pc r = .enterBlocked) ∧ (y.pc r).inside = true

/-- The baton is on its way to the signalled waiter of `c`. -/
def Pending (c : ℕ) (released : Option ℕ) (s : State) (T : Token) : Prop :=
  match released with
  | none => T = .free (.cv c)
  | some q => T = .handed q ∧ s.pc q = .waitBlocked c

namespace Pending

variable {c q : ℕ} {released : Option ℕ} {s t : State} {T : Token} {op : Op} {x : Pc}

theorem goto_blocked {u : State} {p : ℕ} (hx : s.pc q = .waitBlocked c)
    (hp : s.pc p ≠ .waitBlocked c) (hu : u.pc = s.pc) : (u.goto p x).pc q = .waitBlocked c := by
  have hqp : q ≠ p := by
    rintro rfl
    exact hp hx
  simpa [State.goto, hqp, hu] using hx

theorem advance_blocked {p : ℕ} (hx : s.pc q = .waitBlocked c) (ht : s.advance p = some t) :
    t.pc q = .waitBlocked c ∨ (t.pc q).inside = true := by
  rcases eq_or_ne q p with rfl | hqp
  · obtain ⟨-, rfl⟩ : s.awake q = true ∧
        { s with awake := Function.update s.awake q false }.goto q (.waitDec c) = t := by
      simpa [State.advance, hx, State.wake] using ht
    exact .inr (by simp [State.goto, Pc.inside])
  · refine .inl ?_
    rw [← hx]
    unfold State.advance at ht
    split at ht
    all_goals simp [State.wake, State.down, State.up, State.goto, State.setCount] at ht
    all_goals first
      | (obtain rfl := ht; simp [hqp])
      | (obtain ⟨-, rfl⟩ := ht; simp [hqp])

theorem step_blocked (hx : s.pc q = .waitBlocked c) (ht : s.step op = some t) :
    t.pc q = .waitBlocked c ∨ (t.pc q).inside = true := by
  cases op with
  | advance p =>
    obtain ⟨-, ht⟩ : p ∈ s.procs ∧ s.advance p = some t := by simpa [State.step] using ht
    exact advance_blocked hx ht
  | enter p =>
    obtain ⟨⟨-, hp⟩, rfl⟩ : (p ∈ s.procs ∧ s.pc p = .outside) ∧
        s.down .mutex p .body .enterBlocked = t := by simpa [State.step] using ht
    exact .inl (goto_blocked hx (by simp [hp]) rfl)
  | condWait p d =>
    obtain ⟨⟨-, hp⟩, rfl⟩ : (p ∈ s.procs ∧ s.pc p = .body) ∧
        (s.setCount d (s.count d + 1)).goto p (.waitTest d) = t := by simpa [State.step] using ht
    exact .inl (goto_blocked hx (by simp [hp]) rfl)
  | condSignal p d =>
    obtain ⟨⟨-, hp⟩, rfl⟩ : (p ∈ s.procs ∧ s.pc p = .body) ∧
        (if 0 < s.count d then s.goto p (.signalInc d) else s) = t := by
      simpa [State.step] using ht
    split
    · exact .inl (goto_blocked hx (by simp [hp]) rfl)
    · exact .inl hx
  | leave p =>
    obtain ⟨⟨-, hp⟩, rfl⟩ : (p ∈ s.procs ∧ s.pc p = .body) ∧
        s.goto p (if 0 < s.nextCount then .leaveUpNext else .leaveUpMutex) = t := by
      simpa [State.step] using ht
    exact .inl (goto_blocked hx (by simp [hp]) rfl)
  | fork p r =>
    obtain ⟨-, rfl⟩ : (p ∈ s.procs ∧ r ∉ s.procs) ∧
        (if s.procs.card < maxProcess then { s with procs := insert r s.procs } else s) = t := by
      simpa [State.step] using ht
    split <;> exact .inl hx
  | exit p =>
    obtain ⟨-, rfl⟩ : (p ∈ s.procs ∧ s.pc p = .outside) ∧
        { s with procs := s.procs.erase p } = t := by simpa [State.step] using ht
    exact .inl hx

theorem downs_cv {y : Pc} (h : y.downs = some (.cv c)) : y = .waitDown c := by
  cases y <;> simp_all [Pc.downs]

/-- Until the signalled waiter runs, the baton stays on its way and nobody enters. -/
theorem step (b : Pending c released s T) (k : Inv s T) (ht : s.step op = some t) :
    (¬ Resumes c released s t → ∃ T', Inv t T' ∧ Pending c released t T') ∧
      ∀ r, ¬ Enters r s t := by
  obtain ⟨T', k', hsh⟩ := k.step ht
  cases released with
  | none =>
    obtain rfl : T = .free (.cv c) := b
    cases hsh with
    | use h => simp at h
    | run h => simp at h
    | keep h =>
      subst h
      refine ⟨fun _ => ⟨_, k', rfl⟩, fun r hr => ?_⟩
      simpa using (k'.baton.inside r).mp hr.2
    | take i h h' hp =>
      obtain rfl : SemId.cv c = i := by simpa using h
      subst h'
      have hx := downs_cv hp
      refine ⟨fun hn => absurd ?_ hn, ?_⟩
      · exact ⟨_, ⟨.inl hx, (k'.baton.inside _).mpr rfl⟩, by simp⟩
      · rintro r ⟨hr, hi⟩
        obtain rfl : op.proc = r := by simpa using (k'.baton.inside r).mp hi
        simp [hx] at hr
  | some q =>
    obtain ⟨rfl, hx⟩ := b
    have hT : ∀ r, T' = .owner r → r = q := by
      rintro r rfl
      cases hsh with
      | keep h => simp at h
      | use h => simp at h
      | take i h => simp at h
      | run h h' =>
        obtain rfl : q = op.proc := by simpa using h
        simpa using h'
    constructor
    · intro hn
      rcases step_blocked hx ht with hq | hq
      · cases hsh with
        | keep h => exact ⟨T', k', h, hq⟩
        | use h => simp at h
        | take i h => simp at h
        | run h h' =>
          obtain rfl : q = op.proc := by simpa using h
          have := (k'.baton.inside _).mpr h'
          simp [hq, Pc.inside] at this
      · exact absurd ⟨q, ⟨.inr hx, hq⟩, by simp⟩ hn
    · rintro r ⟨hr, hi⟩
      obtain rfl := hT r ((k'.baton.inside r).mp hi)
      simp [hx] at hr

/-- The signal of a process that has found `count > 0` starts the way of the baton. -/
theorem start {p : ℕ} (k : Inv s T) (hx : s.pc p = .signalUp c)
    (ht : s.step (.advance p) = some t) :
    (∃ r, s.pc r = .waitDown c ∨ s.pc r = .waitBlocked c) ∧
      ∃ T', Inv t T' ∧ Pending c (s.sem (.cv c)).queue.head? t T' := by
  have hi : (s.pc p).inside = true := by rw [hx]; rfl
  constructor
  · have hc : 0 < (s.count c).toInt := Semaphore.pos_iff.mp (k.armed p c (.inr hx))
    rw [k.counts.wait] at hc
    obtain ⟨r, hr⟩ := Finset.card_pos.mp (by exact_mod_cast hc)
    refine ⟨r, ?_⟩
    have hr' : (s.pc r).inWait c = true := (Finset.mem_filter.mp hr).2
    have hro : (s.pc r).inside = false := by
      by_contra h
      obtain rfl := k.safe.exclusive r p (by simpa using h) hi
      simp [hx, Pc.inWait] at hr'
    revert hr' hro
    cases s.pc r <;> simp [Pc.inWait, Pc.inside, eq_comm]
  · obtain ⟨T', k', -⟩ := k.step ht
    obtain ⟨-, rfl⟩ : p ∈ s.procs ∧ (s.up (.cv c)).goto p (.signalDown c) = t := by
      simpa [State.step, State.advance, hx] using ht
    refine ⟨T', k', ?_⟩
    rcases hq : (s.sem (.cv c)).queue with _ | ⟨q, qs⟩
    · have hu := Semaphore.up_nil hq
      have hv := k'.baton.value (.cv c)
      have hv₀ : (s.sem (.cv c)).value = 0 := by
        simpa [(k.baton.inside p).mp hi] using k.baton.value (.cv c)
      by_contra hT
      simp [Pending] at hT
      simp [State.goto, State.up, hu, hv₀, hT] at hv
    · have hu := Semaphore.up_cons hq
      have hqc := ((k.baton.queue (.cv c) q).mp (by simp [hq])).1
      have hqp : q ≠ p := by
        rintro rfl
        simp [hx, Pc.waitsOn] at hqc
      have hq' : s.pc q = .waitBlocked c := by
        revert hqc
        cases s.pc q <;> simp [Pc.waitsOn]
      refine ⟨(k'.baton.awake q).mp ?_, ?_⟩
      · simp [State.goto, State.up, hu]
      · simpa [State.goto, State.up, hqp] using hq'

end Pending

/-- In every reachable state the monitor is safe, and after a signal that found a waiter nobody
enters through the mutex before the signalled waiter has run. -/
theorem monitor_safe (ops : List Op) (s : State)
    (hr : Runs (fun x op y => x.step op = some y) monitorInit ops s) :
    Safe s ∧ ∀ p c t, s.pc p = .signalUp c → s.step (.advance p) = some t →
      (∃ r, s.pc r = .waitDown c ∨ s.pc r = .waitBlocked c) ∧
      ∀ ops' u, Runs (fun x op y => x.step op = some y ∧
          ¬ Resumes c (s.sem (.cv c)).queue.head? x y) t ops' u →
        ∀ op w r, u.step op = some w → ¬ Enters r u w := by
  obtain ⟨T, k⟩ : ∃ T, Inv s T := by
    refine hr.invariant (P := fun s => ∃ T, Inv s T) ?_ ⟨_, Inv.init⟩
    rintro x op y ⟨T, k⟩ hxy
    obtain ⟨T', k', -⟩ := k.step hxy
    exact ⟨T', k'⟩
  refine ⟨k.safe, fun p c t hx ht => ?_⟩
  obtain ⟨hw, T₁, k₁, b₁⟩ := Pending.start k hx ht
  refine ⟨hw, fun ops' u hu op w r huw => ?_⟩
  obtain ⟨T₂, k₂, b₂⟩ : ∃ T, Inv u T ∧ Pending c (s.sem (.cv c)).queue.head? u T := by
    refine hu.invariant (P := fun u => ∃ T, Inv u T ∧ Pending c _ u T) ?_ ⟨T₁, k₁, b₁⟩
    rintro x op y ⟨T, k, b⟩ ⟨hxy, hn⟩
    exact (b.step k hxy).1 hn
  exact (b₂.step k₂ huw).2 r

/-- One process waits on a condition variable, another enters and is about to signal it. -/
def signalTrace : List Op :=
  [.fork 0 1, .enter 0, .condWait 0 0, .advance 0, .advance 0, .advance 0, .enter 1,
    .condSignal 1 0, .advance 1]

theorem monitor_safe_signalTrace :
    ∃ s, Runs (fun x op y => x.step op = some y) monitorInit signalTrace s ∧
      s.pc 1 = .signalUp 0 ∧ Safe s := by
  have he : (signalTrace.foldlM State.step monitorInit).map (fun s => s.pc 1) =
      some (.signalUp 0) := by decide
  obtain ⟨s, hs, hx⟩ := Option.map_eq_some_iff.mp he
  have hr := Runs.iff_foldlM.mpr hs
  exact ⟨s, hr, hx, (monitor_safe _ s hr).1⟩

end UCore.Monitor
