import UCore.Sync.DinnerSema
import UCore.Sync.MonitorSafety

/-! # The philosophers with a monitor

The baton of the monitor makes the tests atomic. A signal is given for a philosopher that eats, and
only it takes the signal, so it eats when it returns from `cond_wait`.
-/

namespace UCore.Philosophers

open Library Sync Monitor

namespace CondvarPc

/-- The philosophers that the routine has still to test. -/
def todo : CondvarPc → List ℕ
  | test _ todo | signal _ _ todo => todo
  | _ => []

end CondvarPc

/-- The statements of the monitor and the states at a statement of the routine of philosopher
`i`. -/
def Place (i : ℕ) (y : Pc) (st : PhiState) : CondvarPc → Prop
  | .idle r => (y = .outside ∨ y = .leaveUpNext ∨ y = .leaveUpMutex) ∧
      st = match r with
        | .take => .thinking
        | .put => .eating
  | .enter r => (y = .enterBlocked ∨ y = .body) ∧
      st = match r with
        | .take => .thinking
        | .put => .eating
  | .test r _ => (y = .body ∨ (∃ c, y = .signalInc c) ∨ y.inSignal = true) ∧
      (st = .thinking ↔ r = .put)
  | .signal r _ _ => y = .body ∧ (st = .thinking ↔ r = .put)
  | .leave => (y = .waitTest i ∨ y = .waitUpNext i ∨ y = .waitUpMutex i ∨ y = .waitDown i ∨
      y = .waitBlocked i) ∧ st ≠ .thinking ∨ (y = .waitDec i ∨ y = .body) ∧ st = .eating

section Place

variable {i c : ℕ} {y : Pc} {st : PhiState} {z : CondvarPc}

theorem place_signal (hy : (∃ c, y = .signalInc c) ∨ y.inSignal = true) :
    Place i y st z ↔ ∃ r todo, z = .test r todo ∧ (st = .thinking ↔ r = .put) := by
  have h₁ : y ≠ .body := by rintro rfl; simp [Pc.inSignal] at hy
  have h₂ : y ≠ .outside ∧ y ≠ .leaveUpNext ∧ y ≠ .leaveUpMutex ∧ y ≠ .enterBlocked := by
    refine ⟨?_, ?_, ?_, ?_⟩ <;>
    · rintro rfl
      simp [Pc.inSignal] at hy
  have h₃ : ∀ c, y ≠ .waitTest c ∧ y ≠ .waitUpNext c ∧ y ≠ .waitUpMutex c ∧ y ≠ .waitDown c ∧
      y ≠ .waitBlocked c ∧ y ≠ .waitDec c := by
    intro c
    refine ⟨?_, ?_, ?_, ?_, ?_, ?_⟩ <;>
    · rintro rfl
      simp [Pc.inSignal] at hy
  cases z <;> simp [Place, h₁, h₂, h₃, hy]

theorem place_wait (hy : y = .waitTest c ∨ y = .waitUpNext c ∨ y = .waitUpMutex c ∨
    y = .waitDown c ∨ y = .waitBlocked c) :
    Place i y st z ↔ z = .leave ∧ c = i ∧ st ≠ .thinking := by
  rcases hy with rfl | rfl | rfl | rfl | rfl <;> cases z <;> simp [Place, Pc.inSignal]

theorem place_outside (hy : y = .outside ∨ y = .leaveUpNext ∨ y = .leaveUpMutex) :
    Place i y st z ↔ Place i .outside st z := by
  rcases hy with rfl | rfl | rfl <;> cases z <;> simp [Place, Pc.inSignal]

theorem Place.eat (h : Place i y .hungry z) : Place i y .eating z := by
  cases z with
  | idle r => cases r <;> simp [Place] at h
  | enter r => cases r <;> simp [Place] at h
  | test r _ => simpa [Place] using h
  | signal r _ _ => simpa [Place] using h
  | leave =>
    simp only [Place] at h ⊢
    exact .inl ⟨(h.resolve_right (by simp)).1, by simp⟩

end Place

namespace Condvar

/-- Philosopher `p` is about to signal philosopher `j`. -/
def Signals (x : Condvar) (p j : ℕ) : Prop :=
  (∃ r todo, x.pc p = .signal r j todo) ∨ x.mt.pc p = .signalInc j ∨ x.mt.pc p = .signalUp j

/-- The signal for philosopher `j` is given, and it has not run since. -/
def Signalled (x : Condvar) (T : Token) (j : ℕ) : Prop :=
  T = .free (.cv j) ∨ ∃ q, T = .handed q ∧ x.mt.pc q = .waitBlocked j

structure Inv (n : ℕ) (x : Condvar) (T : Token) : Prop where
  baton : Baton x.mt T
  procs : x.mt.procs = Finset.range n
  outside : ∀ i, n ≤ i → x.pc i = .idle .take
  place : ∀ i, Place i (x.mt.pc i) (x.state i) (x.pc i)
  todo : ∀ i, ∀ j ∈ (x.pc i).todo, j < n
  signals : ∀ p j, x.Signals p j → x.state j = .eating
  signalled : ∀ j, x.Signalled T j → x.state j = .eating
  dinner : Dinner n x.state fun j => ∃ p, j ∈ (x.pc p).todo

variable {n i : ℕ} {x t : Condvar} {T T' : Token} {y : Pc} {z : CondvarPc}

theorem init (n : ℕ) : Inv n (condvarInit n) (.free .mutex) := by
  have b := Monitor.Inv.init.baton
  refine ⟨⟨b.value, b.empty, b.queue, b.nodup, b.inside, b.awake, b.handed⟩, rfl, fun _ _ => rfl,
    fun _ => ⟨.inl rfl, rfl⟩, ?_, ?_, ?_, ?_⟩
  · simp [condvarInit, CondvarPc.todo]
  · rintro p j (⟨r, todo, h⟩ | h | h) <;> cases h
  · rintro j (h | ⟨q, h, -⟩) <;> cases h
  · exact ⟨by simp [condvarInit], by simp [condvarInit]⟩

theorem Inv.move (k : Inv n x T) (hi : i < n) (hb : Baton t.mt T')
    (hprocs : t.mt.procs = x.mt.procs) (hmt : t.mt.pc = Function.update x.mt.pc i y)
    (hpc : t.pc = Function.update x.pc i z) (hp : Place i y (t.state i) z)
    (hpo : ∀ p, p ≠ i → Place p (x.mt.pc p) (t.state p) (x.pc p)) (ht : ∀ j ∈ z.todo, j < n)
    (hs : ∀ p j, t.Signals p j → t.state j = .eating)
    (hg : ∀ j, t.Signalled T' j → t.state j = .eating)
    (hd : Dinner n t.state fun j => ∃ p, j ∈ (t.pc p).todo) : Inv n t T' := by
  refine ⟨hb, hprocs.trans k.procs, fun j hj => ?_, fun p => ?_, fun p j hj => ?_, hs, hg, hd⟩
  · rw [hpc, Function.update_of_ne (by omega)]
    exact k.outside j hj
  · rw [hmt, hpc]
    rcases eq_or_ne p i with rfl | hpi
    · simpa using hp
    · simpa [hpi] using hpo p hpi
  · rw [hpc] at hj
    rcases eq_or_ne p i with rfl | hpi
    · exact ht j (by simpa using hj)
    · exact k.todo p j (by simpa [hpi] using hj)

theorem Inv.goto (k : Inv n x T) (hi : i < n) (hst : t.state = x.state) (hb : Baton t.mt T')
    (hprocs : t.mt.procs = x.mt.procs) (hmt : t.mt.pc = Function.update x.mt.pc i y)
    (hpc : t.pc = Function.update x.pc i z) (hp : Place i y (x.state i) z)
    (ht : z.todo = (x.pc i).todo) (hsz : ∀ r j todo, z ≠ .signal r j todo)
    (hs : ∀ j, y = .signalInc j ∨ y = .signalUp j → x.state j = .eating)
    (hg : ∀ j, t.Signalled T' j → x.state j = .eating) : Inv n t T' := by
  refine k.move hi hb hprocs hmt hpc (hst ▸ hp) (fun p _ => hst ▸ k.place p)
    (fun j hj => k.todo i j (ht ▸ hj)) (fun p j h => ?_) (hst ▸ hg) ?_
  · rw [hst]
    rcases eq_or_ne p i with rfl | hpi
    · unfold Signals at h
      rw [hmt, hpc, Function.update_self, Function.update_self] at h
      exact hs j (h.resolve_left fun ⟨r, todo, h⟩ => hsz r j todo h)
    · unfold Signals at h
      rw [hmt, hpc, Function.update_of_ne hpi, Function.update_of_ne hpi] at h
      exact k.signals p j h
  · rw [hst]
    refine k.dinner.mono fun j ⟨p, hj⟩ => ⟨p, ?_⟩
    rw [hpc]
    rcases eq_or_ne p i with rfl | hpi
    · rwa [Function.update_self, ht]
    · rwa [Function.update_of_ne hpi]

theorem not_signalled {j : ℕ} {p : ℕ} (h : x.Signalled (.owner p) j) : False := by
  rcases h with h | ⟨q, h, -⟩ <;> cases h

theorem Inv.owned (k : Inv n x T) (h : (x.mt.pc i).inside = true) : T = .owner i :=
  (k.baton.inside i).mp h

section Advance

variable {m : Monitor.State}

theorem Inv.stay (k : Inv n x T) (hi : i < n) (hin : (x.mt.pc i).inside = true)
    (hy : y.inside = true) (hsem : m.sem = x.mt.sem) (hpc : m.pc = Function.update x.mt.pc i y)
    (ha : m.awake = x.mt.awake) (hprocs : m.procs = x.mt.procs)
    (hp : Place i y (x.state i) (x.pc i)) (hsz : ∀ r j todo, x.pc i ≠ .signal r j todo)
    (hs : ∀ j, y = .signalInc j ∨ y = .signalUp j → x.state j = .eating) :
    Inv n { x with mt := m } T := by
  have hT := k.owned hin
  refine k.goto hi rfl (k.baton.stay hin hy hsem hpc ha) hprocs hpc
    (Function.update_eq_self i x.pc).symm hp rfl hsz hs fun j hj => ?_
  subst hT
  exact (not_signalled hj).elim

theorem Inv.up {c : SemId} (k : Inv n x T) (hi : i < n) (hin : (x.mt.pc i).inside = true)
    (hy : y.inside = false) (hw : y.waitsOn = none) (hp : Place i y (x.state i) (x.pc i))
    (hsz : ∀ r j todo, x.pc i ≠ .signal r j todo)
    (hc : ∀ j, c = .cv j → x.state j = .eating) :
    ∃ T', Inv n { x with mt := (x.mt.up c).goto i y } T' := by
  have hb := k.baton.up (i := c) hin hy hw
  refine ⟨_, k.goto hi rfl hb rfl rfl (Function.update_eq_self i x.pc).symm hp rfl hsz
    (fun j hj => ?_) fun j hj => hc j ?_⟩
  · rcases hj with rfl | rfl <;> simp [Pc.inside] at hy
  · cases hq : (x.mt.sem c).queue with
    | nil =>
      simp only [hq, List.head?_nil] at hj
      rcases hj with h | ⟨q, h, -⟩
      · cases h
        rfl
      · cases h
    | cons q qs =>
      simp only [hq, List.head?_cons] at hj
      rcases hj with h | ⟨r, h, hr⟩
      · cases h
      · cases h
        have hqw := ((k.baton.queue c q).mp (by simp [hq])).1
        have hqi : q ≠ i := by
          rintro rfl
          rw [Pc.waitsOn_of_inside hin] at hqw
          cases hqw
        have hr' : x.mt.pc q = .waitBlocked j := by
          simpa [Monitor.State.goto, Monitor.State.up, hqi] using hr
        rw [hr'] at hqw
        exact (Option.some.inj hqw).symm

/-- A `down` of the monitor, by which a philosopher goes to the statement `z` of its routine. -/
theorem Inv.down {c : SemId} {u v : Pc} (k : Inv n x T) (hi : i < n)
    (hx : (x.mt.pc i).inside = false) (hxw : (x.mt.pc i).waitsOn = none)
    (hd : u.inside = true) (hb : v.inside = false) (hbw : v.waitsOn = some c)
    (hpd : (∀ j, c = .cv j → x.state j = .eating) → Place i u (x.state i) z)
    (hpb : Place i v (x.state i) z) (ht : z.todo = (x.pc i).todo)
    (hsz : ∀ r j todo, z ≠ .signal r j todo)
    (hsd : ∀ j, u ≠ .signalInc j ∧ u ≠ .signalUp j) :
    ∃ T', Inv n (({ x with mt := x.mt.down c i u v } : Condvar).goto i z) T' := by
  have hbat := k.baton.down hx hxw hd hb hbw
  refine ⟨_, k.goto hi rfl hbat rfl rfl rfl ?_ ht hsz (fun j hj => ?_) fun j hj => ?_⟩
  · split
    · rename_i hdown
      refine hpd fun j hj => k.signalled j (.inl ?_)
      have hv : 0 < (x.mt.sem c).value := by
        unfold Semaphore.down at hdown
        split at hdown
        · assumption
        · cases hdown
      rw [k.baton.value] at hv
      split at hv
      · subst hj
        assumption
      · simp at hv
    · exact hpb
  · split at hj
    · exact absurd hj (by simp [hsd j])
    · rcases hj with h | h <;> simp [h, Pc.waitsOn] at hbw
  · have hkeep : x.Signalled T j → x.state j = .eating := k.signalled j
    split at hj
    · exact (not_signalled hj).elim
    · refine hkeep ?_
      rcases hj with h | ⟨q, h, hq⟩
      · exact .inl h
      · refine .inr ⟨q, h, ?_⟩
        have hqi : q ≠ i := by
          rintro rfl
          exact k.baton.handed q h hxw
        simpa [Condvar.goto, Monitor.State.down, Monitor.State.goto, hqi] using hq

theorem Inv.wake {done : Pc} (k : Inv n x T) (hi : i < n) (ht : x.mt.wake i done = some m)
    (hd : done.inside = true)
    (hp : (∀ j, x.mt.pc i = .waitBlocked j → x.state j = .eating) →
      Place i done (x.state i) (x.pc i))
    (hsz : ∀ r j todo, x.pc i ≠ .signal r j todo)
    (hsd : ∀ j, done ≠ .signalInc j ∧ done ≠ .signalUp j) :
    ∃ T', Inv n { x with mt := m } T' := by
  obtain ⟨rfl, hb⟩ := k.baton.wake ht hd
  obtain ⟨-, rfl⟩ : x.mt.awake i = true ∧
      { x.mt with awake := Function.update x.mt.awake i false }.goto i done = m := by
    simpa [Monitor.State.wake] using ht
  refine ⟨_, k.goto hi rfl hb rfl rfl (Function.update_eq_self i x.pc).symm
    (hp fun j hj => k.signalled j (.inr ⟨i, rfl, hj⟩)) rfl hsz (fun j hj => ?_) fun j hj => ?_⟩
  · exact absurd hj (by simp [hsd j])
  · exact (not_signalled hj).elim

theorem not_signal (k : Inv n x T) (hx : x.mt.pc i ≠ .body) (r : Routine) (j : ℕ)
    (todo : List ℕ) : x.pc i ≠ .signal r j todo := by
  intro h
  have hp := k.place i
  rw [h] at hp
  exact hx hp.1

/-- The next statement of the monitor. -/
theorem Inv.advance (k : Inv n x T) (hi : i < n) (hx : x.mt.pc i ≠ .body)
    (ht : x.mt.advance i = some m) : ∃ T', Inv n { x with mt := m } T' := by
  have hsz := not_signal k hx
  have hp := k.place i
  unfold Monitor.State.advance at ht
  cases hy : x.mt.pc i with
  | outside => simp [hy] at ht
  | body => exact absurd hy hx
  | enterBlocked =>
    rw [hy] at ht hp
    refine k.wake hi ht rfl (fun _ => ?_) hsz (by simp)
    cases hz : x.pc i <;> rw [hz] at hp <;> simp [Place, Pc.inSignal] at hp ⊢
    exact hp
  | waitTest c =>
    rw [hy, place_wait (.inl rfl)] at hp
    obtain rfl :
      x.mt.goto i (if 0 < x.mt.nextCount then .waitUpNext c else .waitUpMutex c) = m := by
      simpa [hy] using ht
    have hpl : ∀ y', y' = .waitUpNext c ∨ y' = .waitUpMutex c → Place i y' (x.state i) (x.pc i) :=
      fun y' h => (place_wait (.inr (h.imp id .inl))).mpr hp
    split
    · exact ⟨T, k.stay hi (by rw [hy]; rfl) rfl rfl rfl rfl rfl (hpl _ (.inl rfl)) hsz (by simp)⟩
    · exact ⟨T, k.stay hi (by rw [hy]; rfl) rfl rfl rfl rfl rfl (hpl _ (.inr rfl)) hsz (by simp)⟩
  | waitUpNext c =>
    rw [hy, place_wait (.inr (.inl rfl))] at hp
    obtain rfl : (x.mt.up .next).goto i (.waitDown c) = m := by simpa [hy] using ht
    exact k.up hi (by rw [hy]; rfl) rfl rfl ((place_wait (.inr (.inr (.inr (.inl rfl))))).mpr hp)
      hsz (by simp)
  | waitUpMutex c =>
    rw [hy, place_wait (.inr (.inr (.inl rfl)))] at hp
    obtain rfl : (x.mt.up .mutex).goto i (.waitDown c) = m := by simpa [hy] using ht
    exact k.up hi (by rw [hy]; rfl) rfl rfl ((place_wait (.inr (.inr (.inr (.inl rfl))))).mpr hp)
      hsz (by simp)
  | waitDown c =>
    rw [hy, place_wait (.inr (.inr (.inr (.inl rfl))))] at hp
    obtain ⟨hz, rfl, hst⟩ := hp
    obtain rfl : x.mt.down (.cv c) c (.waitDec c) (.waitBlocked c) = m := by simpa [hy] using ht
    have := k.down (c := .cv c) (z := x.pc c) (u := .waitDec c) (v := .waitBlocked c) hi
      (by rw [hy]; rfl) (by rw [hy]; rfl) rfl rfl rfl
      (fun h => by rw [hz]; exact .inr ⟨.inl rfl, h c rfl⟩)
      ((place_wait (.inr (.inr (.inr (.inr rfl))))).mpr ⟨hz, rfl, hst⟩) rfl hsz (by simp)
    simpa [Condvar.goto, Function.update_eq_self] using this
  | waitBlocked c =>
    rw [hy] at ht hp
    rw [place_wait (.inr (.inr (.inr (.inr rfl))))] at hp
    obtain ⟨hz, rfl, -⟩ := hp
    exact k.wake hi ht rfl (fun hj => by rw [hz]; exact .inr ⟨.inl rfl, hj c hy⟩) hsz (by simp)
  | waitDec c =>
    obtain rfl : (x.mt.setCount c (x.mt.count c - 1)).goto i .body = m := by simpa [hy] using ht
    refine ⟨T, k.stay (y := .body) hi (by rw [hy]; rfl) rfl rfl rfl rfl rfl ?_ hsz (by simp)⟩
    rw [hy] at hp
    cases hz : x.pc i <;> rw [hz] at hp <;> simp [Place, Pc.inSignal] at hp ⊢
    exact hp.2
  | signalInc c =>
    rw [hy, place_signal (.inl ⟨c, rfl⟩)] at hp
    obtain rfl : { x.mt with nextCount := x.mt.nextCount + 1 }.goto i (.signalUp c) = m := by
      simpa [hy] using ht
    refine ⟨T, k.stay (y := .signalUp c) hi (by rw [hy]; rfl) rfl rfl rfl rfl rfl
      ((place_signal (.inr rfl)).mpr hp) hsz fun j hj => ?_⟩
    obtain rfl : c = j := by simpa using hj
    exact k.signals i c (.inr (.inl hy))
  | signalUp c =>
    rw [hy, place_signal (.inr rfl)] at hp
    obtain rfl : (x.mt.up (.cv c)).goto i (.signalDown c) = m := by simpa [hy] using ht
    refine k.up hi (by rw [hy]; rfl) rfl rfl ((place_signal (.inr rfl)).mpr hp) hsz fun j hj => ?_
    obtain rfl : c = j := by simpa using hj
    exact k.signals i c (.inr (.inr hy))
  | signalDown c =>
    rw [hy, place_signal (.inr rfl)] at hp
    obtain rfl : x.mt.down .next i (.signalDec c) (.signalBlocked c) = m := by simpa [hy] using ht
    have := k.down (c := .next) (z := x.pc i) (u := .signalDec c) (v := .signalBlocked c) hi
      (by rw [hy]; rfl) (by rw [hy]; rfl) rfl rfl rfl
      (fun _ => (place_signal (.inr rfl)).mpr hp) ((place_signal (.inr rfl)).mpr hp) rfl hsz
      (by simp)
    simpa [Condvar.goto, Function.update_eq_self] using this
  | signalBlocked c =>
    rw [hy] at ht hp
    rw [place_signal (.inr rfl)] at hp
    exact k.wake hi ht rfl (fun _ => (place_signal (.inr rfl)).mpr hp) hsz (by simp)
  | signalDec c =>
    rw [hy, place_signal (.inr rfl)] at hp
    obtain ⟨r, todo, hz, hst⟩ := hp
    obtain rfl : { x.mt with nextCount := x.mt.nextCount - 1 }.goto i .body = m := by
      simpa [hy] using ht
    refine ⟨T, k.stay (y := .body) hi (by rw [hy]; rfl) rfl rfl rfl rfl rfl ?_ hsz (by simp)⟩
    rw [hz]
    exact ⟨.inl rfl, hst⟩
  | leaveUpNext =>
    rw [hy, place_outside (.inr (.inl rfl))] at hp
    obtain rfl : (x.mt.up .next).goto i .outside = m := by simpa [hy] using ht
    exact k.up hi (by rw [hy]; rfl) rfl rfl hp hsz (by simp)
  | leaveUpMutex =>
    rw [hy, place_outside (.inr (.inr rfl))] at hp
    obtain rfl : (x.mt.up .mutex).goto i .outside = m := by simpa [hy] using ht
    exact k.up hi (by rw [hy]; rfl) rfl rfl hp hsz (by simp)

end Advance

section Body

theorem Inv.signals_self (k : Inv n x T) (hx : (x.mt.pc i).inside = true) {p j : ℕ}
    (h : x.Signals p j) : p = i := by
  have hin : (x.mt.pc p).inside = true := by
    rcases h with ⟨r, todo, h⟩ | h | h
    · have hp := k.place p
      rw [h] at hp
      rw [hp.1]
      rfl
    · rw [h]
      rfl
    · rw [h]
      rfl
  have h₁ := k.owned hin
  rw [k.owned hx] at h₁
  exact (Token.owner.inj h₁).symm

theorem Inv.local (k : Inv n x T) (hi : i < n) (hx : x.mt.pc i = .body) (hmt : t.mt = x.mt)
    (hpc : t.pc = Function.update x.pc i z) (hp : Place i .body (t.state i) z)
    (hpo : ∀ p, p ≠ i → Place p (x.mt.pc p) (t.state p) (x.pc p)) (ht : ∀ j ∈ z.todo, j < n)
    (hs : ∀ r j todo, z = .signal r j todo → t.state j = .eating)
    (hd : Dinner n t.state fun j => ∃ p, j ∈ (t.pc p).todo) : Inv n t T := by
  have hin : (x.mt.pc i).inside = true := by rw [hx]; rfl
  have hT := k.owned hin
  refine k.move (y := .body) hi (hmt ▸ k.baton) (by rw [hmt]) ?_ hpc hp hpo ht (fun p j h => ?_)
    (fun j hj => ?_) hd
  · rw [hmt, ← hx, Function.update_eq_self]
  · rcases eq_or_ne p i with rfl | hpi
    · unfold Signals at h
      rw [hpc, Function.update_self, hmt, hx] at h
      rcases h with ⟨r, todo, h⟩ | h | h
      · exact hs r j todo h
      · cases h
      · cases h
    · unfold Signals at h
      rw [hpc, Function.update_of_ne hpi, hmt] at h
      exact absurd (k.signals_self hin h) hpi
  · subst hT
    exact (not_signalled hj).elim

theorem Inv.enter {r : Routine} (k : Inv n x T) (hi : i < n) (hx : x.mt.pc i = .body)
    (hz : x.pc i = .enter r) :
    Inv n ((x.set i r.state).goto i (.test r (r.tests n i))) T := by
  have hp := k.place i
  rw [hz] at hp
  have hst : ∀ p, p ≠ i →
      ((x.set i r.state).goto i (.test r (r.tests n i))).state p = x.state p :=
    fun p hp => Function.update_of_ne hp _ _
  have hsi : ((x.set i r.state).goto i (.test r (r.tests n i))).state i = r.state :=
    Function.update_self _ _ _
  refine k.local (z := .test r (r.tests n i)) hi hx rfl rfl ?_ (fun p hp => ?_) (fun l hl => ?_)
    (by simp) ?_
  · rw [hsi]
    cases r <;> simp [Place, Routine.state]
  · rw [hst p hp]
    exact k.place p
  · exact r.tests_lt hi hl
  · have htodo : ∀ l, l ∈ r.tests n i →
        ∃ p, l ∈ (((x.set i r.state).goto i (.test r (r.tests n i))).pc p).todo := fun l hl =>
      ⟨i, by simpa [Condvar.goto, CondvarPc.todo] using hl⟩
    refine k.dinner.set hi (by cases r <;> simp [Routine.state]) (fun h => htodo i ?_)
      (fun h => ?_) fun l hl => ?_
    · cases r <;> simp [Routine.state, Routine.tests] at h ⊢
    · cases r with
      | take => cases hp.2.symm.trans h
      | put => exact ⟨htodo _ (by simp [Routine.tests]), htodo _ (by simp [Routine.tests])⟩
    · obtain ⟨p, hl⟩ := hl
      refine ⟨p, ?_⟩
      rcases eq_or_ne p i with rfl | hpi
      · simp [hz, CondvarPc.todo] at hl
      · simpa [Condvar.goto, Condvar.set, hpi] using hl

theorem Inv.test_pass {r : Routine} {j : ℕ} {todo : List ℕ} (k : Inv n x T) (hn : 2 ≤ n)
    (hi : i < n) (hx : x.mt.pc i = .body) (hz : x.pc i = .test r (j :: todo))
    (hm : MayEat n x.state j) : Inv n ((x.set j .eating).goto i (.signal r j todo)) T := by
  have hp := k.place i
  rw [hz] at hp
  have hst : ∀ p, p ≠ j → ((x.set j .eating).goto i (.signal r j todo)).state p = x.state p :=
    fun p hp => Function.update_of_ne hp _ _
  have hsj : ((x.set j .eating).goto i (.signal r j todo)).state j = .eating :=
    Function.update_self _ _ _
  refine k.local (z := .signal r j todo) hi hx rfl rfl ⟨rfl, ?_⟩ (fun p hpi => ?_) (fun l hl => ?_)
    (fun r' l todo' h => ?_) ?_
  · rcases eq_or_ne i j with rfl | hij
    · rw [hsj, ← hp.2, hm.1]
      simp
    · rw [hst i hij]
      exact hp.2
  · rcases eq_or_ne p j with rfl | hpj
    · rw [hsj]
      exact (hm.1 ▸ k.place p).eat
    · rw [hst p hpj]
      exact k.place p
  · exact k.todo i l (by rw [hz]; exact List.mem_cons_of_mem j hl)
  · cases h
    exact hsj
  · refine k.dinner.eat hn (k.todo i j (by simp [hz, CondvarPc.todo])) hm
      fun l hl ⟨p, hm⟩ => ⟨p, ?_⟩
    rcases eq_or_ne p i with rfl | hpi
    · simpa [hz, CondvarPc.todo, hl, Condvar.goto] using hm
    · simpa [Condvar.goto, Condvar.set, hpi] using hm

theorem Inv.test_fail {r : Routine} {j : ℕ} {todo : List ℕ} (k : Inv n x T) (hi : i < n)
    (hx : x.mt.pc i = .body) (hz : x.pc i = .test r (j :: todo)) (hm : ¬MayEat n x.state j) :
    Inv n (x.goto i (.test r todo)) T := by
  have hp := k.place i
  rw [hz] at hp
  refine k.local (z := .test r todo) hi hx rfl rfl ⟨.inl rfl, hp.2⟩ (fun p _ => k.place p)
    (fun l hl => k.todo i l (by rw [hz]; exact List.mem_cons_of_mem j hl)) (by simp) ?_
  refine k.dinner.skip hm fun l hl ⟨p, hm⟩ => ⟨p, ?_⟩
  rcases eq_or_ne p i with rfl | hpi
  · simpa [hz, CondvarPc.todo, hl, Condvar.goto] using hm
  · simpa [Condvar.goto, hpi] using hm

theorem Inv.call {m : Monitor.State} (k : Inv n x T) (hi : i < n) (hx : x.mt.pc i = .body)
    (hsem : m.sem = x.mt.sem) (ha : m.awake = x.mt.awake) (hprocs : m.procs = x.mt.procs)
    (hpc : m.pc = Function.update x.mt.pc i y) (hy : y.inside = true)
    (hp : Place i y (x.state i) z) (ht : z.todo = (x.pc i).todo)
    (hsz : ∀ r j todo, z ≠ .signal r j todo)
    (hs : ∀ j, y = .signalInc j ∨ y = .signalUp j → x.state j = .eating) :
    Inv n (({ x with mt := m } : Condvar).goto i z) T := by
  have hin : (x.mt.pc i).inside = true := by rw [hx]; rfl
  have hT := k.owned hin
  refine k.goto hi rfl (k.baton.stay hin hy hsem hpc ha) hprocs hpc rfl hp ht hsz hs fun j hj => ?_
  subst hT
  exact (not_signalled hj).elim

theorem Inv.leave (k : Inv n x T) (hi : i < n) (hx : x.mt.pc i = .body) {r : Routine}
    (hst : Place i .outside (x.state i) (.idle r)) (ht : (x.pc i).todo = [])
    (h : (x.monitor (.leave i)).map (·.goto i (.idle r)) = some t) : Inv n t T := by
  have hmem : i ∈ x.mt.procs := by rw [k.procs]; exact Finset.mem_range.mpr hi
  obtain rfl : ({ x with
      mt := x.mt.goto i (if 0 < x.mt.nextCount then .leaveUpNext else .leaveUpMutex) } :
      Condvar).goto i (.idle r) = t := by
        simpa [Condvar.monitor, Monitor.State.step, hmem, hx] using h
  split
  · exact k.call (y := .leaveUpNext) hi hx rfl rfl rfl rfl rfl
      ((place_outside (.inr (.inl rfl))).mpr hst) ht.symm (by simp) (by simp)
  · exact k.call (y := .leaveUpMutex) hi hx rfl rfl rfl rfl rfl
      ((place_outside (.inr (.inr rfl))).mpr hst) ht.symm (by simp) (by simp)

theorem Inv.body (k : Inv n x T) (hn : 2 ≤ n) (hi : i < n) (hx : x.mt.pc i = .body)
    (ht : x.body n i = some t) : Inv n t T := by
  have hp := k.place i
  have hmem : i ∈ x.mt.procs := by rw [k.procs]; exact Finset.mem_range.mpr hi
  rw [hx] at hp
  unfold Condvar.body at ht
  split at ht <;> rename_i hz <;> rw [hz] at hp
  · cases ht
  · obtain rfl := Option.some.inj ht
    exact k.enter hi hx hz
  · obtain rfl := Option.some.inj ht
    split
    · exact k.test_pass hn hi hx hz ‹_›
    · exact k.test_fail hi hx hz ‹_›
  · rename_i r j todo
    have hj : x.state j = .eating := k.signals i j (.inl ⟨r, todo, hz⟩)
    obtain rfl : ({ x with mt := if 0 < x.mt.count j then x.mt.goto i (.signalInc j) else x.mt } :
        Condvar).goto i (.test r todo) = t := by
      simpa [Condvar.monitor, Monitor.State.step, hmem, hx] using ht
    split
    · refine k.call (y := .signalInc j) hi hx rfl rfl rfl rfl rfl
        ((place_signal (.inl ⟨j, rfl⟩)).mpr ⟨r, todo, rfl, hp.2⟩) (by rw [hz]; rfl) (by simp)
        fun l hl => ?_
      obtain rfl : j = l := by simpa using hl
      exact hj
    · exact k.call (y := .body) hi hx rfl rfl rfl (by rw [← hx, Function.update_eq_self]) rfl
        ⟨.inl rfl, hp.2⟩ (by rw [hz]; rfl) (by simp) (by simp)
  · have hne : x.state i ≠ .thinking := fun h => by simpa using hp.2.mp h
    split at ht
    · obtain rfl : ({ x with mt := (x.mt.setCount i (x.mt.count i + 1)).goto i (.waitTest i) } :
          Condvar).goto i .leave = t := by
        simpa [Condvar.monitor, Monitor.State.step, hmem, hx] using ht
      exact k.call (y := .waitTest i) hi hx rfl rfl rfl rfl rfl
        ((place_wait (.inl rfl)).mpr ⟨rfl, rfl, hne⟩) (by rw [hz]; rfl) (by simp) (by simp)
    · exact k.leave hi hx ⟨.inl rfl, not_not.mp ‹_›⟩ (by rw [hz]; rfl) ht
  · exact k.leave (r := .take) hi hx ⟨.inl rfl, hp.2.mpr rfl⟩ (by rw [hz]; rfl) ht
  · refine k.leave hi hx ⟨.inl rfl, ?_⟩ (by rw [hz]; rfl) ht
    simpa [Place] using hp

end Body

section Run

theorem Inv.step (k : Inv n x T) (hn : 2 ≤ n) (ht : x.step n i = some t) :
    ∃ T', Inv n t T' := by
  obtain ⟨hi, ht⟩ : i < n ∧ x.advance n i = some t := by simpa [Condvar.step] using ht
  have hmem : i ∈ x.mt.procs := by rw [k.procs]; exact Finset.mem_range.mpr hi
  unfold Condvar.advance at ht
  split at ht
  · rename_i hx
    split at ht
    · rename_i r hz
      have hp := k.place i
      rw [hx, hz] at hp
      obtain rfl : ({ x with mt := x.mt.down .mutex i .body .enterBlocked } : Condvar).goto i
          (.enter r) = t := by simpa [Condvar.monitor, Monitor.State.step, hmem, hx] using ht
      exact k.down hi (by rw [hx]; rfl) (by rw [hx]; rfl) rfl rfl rfl
        (fun _ => ⟨.inr rfl, hp.2⟩) ⟨.inl rfl, hp.2⟩ (by rw [hz]; rfl) (by simp) (by simp)
    · cases ht
  · exact ⟨T, k.body hn hi ‹_› ht⟩
  · rename_i hx
    obtain ⟨m, hm, rfl⟩ : ∃ m, x.mt.advance i = some m ∧ ({ x with mt := m } : Condvar) = t := by
      simpa [Condvar.monitor, Monitor.State.step, hmem] using ht
    exact k.advance hi hx hm

theorem Inv.safe (k : Inv n x T) : Safe n x.state x.Returned x.Inside := by
  refine k.dinner.safe (fun i _ hr => ?_) fun j ⟨p, hj⟩ => ⟨p, ?_, ?_⟩
  · have hp := k.place i
    rw [hr.1] at hp
    exact hp.2
  · by_contra h
    rw [k.outside p (by omega)] at hj
    simp [CondvarPc.todo] at hj
  · have hp := k.place p
    unfold Condvar.Inside
    cases hz : x.pc p with
    | test r todo =>
      rw [hz] at hp
      rcases hp.1 with h | ⟨c, h⟩ | h
      · rw [h]
        exact .inl rfl
      · rw [h]
        exact .inl rfl
      · exact .inr h
    | signal r l todo =>
      rw [hz] at hp
      rw [hp.1]
      exact .inl rfl
    | idle r | enter r | leave => simp [hz, CondvarPc.todo] at hj

end Run

end Condvar

/-- In every run of `n` philosophers, with semaphores or with a monitor, no two neighbours eat, a
philosopher that has taken its forks eats, and while nobody is inside every hungry philosopher
has a neighbour that eats. -/
theorem philosophers_safe (n : ℕ) (hn : 2 ≤ n) :
    (∀ l x, Runs (fun x i y => Sema.step x n i = some y) semaInit l x →
      Safe n x.state x.Returned x.Inside) ∧
    ∀ l x, Runs (fun x i y => Condvar.step x n i = some y) (condvarInit n) l x →
      Safe n x.state x.Returned x.Inside := by
  constructor
  · intro l x h
    obtain ⟨owner, k⟩ := h.invariant (P := fun x => ∃ owner, Sema.Inv n x owner)
      (fun x i y ⟨_, k⟩ hxy => k.step hn hxy) ⟨none, Sema.init n⟩
    exact k.safe
  · intro l x h
    obtain ⟨T, k⟩ := h.invariant (P := fun x => ∃ T, Condvar.Inv n x T)
      (fun x i y ⟨_, k⟩ hxy => k.step hn hxy) ⟨_, Condvar.init n⟩
    exact k.safe

/-- With semaphores philosopher 1 waits while philosopher 0 eats; with a monitor philosopher 0 has
put its forks back and is suspended in its signal to philosopher 1, before its last test. -/
theorem philosophers_safe_three :
    (∃ x, Runs (fun x i y => Sema.step x 3 i = some y) semaInit
      (List.replicate 6 0 ++ List.replicate 5 1) x ∧
      (x.state 0 = .eating ∧ x.state 1 = .hungry) ∧ Safe 3 x.state x.Returned x.Inside) ∧
    ∃ x, Runs (fun x i y => Condvar.step x 3 i = some y) (condvarInit 3)
      (List.replicate 6 0 ++ List.replicate 7 2 ++ List.replicate 7 0) x ∧
      (x.mt.pc 0 = .signalBlocked 2 ∧ x.pc 0 = .test .put [1] ∧ x.state 2 = .eating) ∧
      Safe 3 x.state x.Returned x.Inside := by
  obtain ⟨hsema, hcondvar⟩ := philosophers_safe 3 (by decide)
  constructor
  · have he : Option.map (fun x : Sema => decide (x.state 0 = .eating ∧ x.state 1 = .hungry))
        ((List.replicate 6 0 ++ List.replicate 5 1).foldlM (fun x i => x.step 3 i) semaInit) =
        some true := by decide
    obtain ⟨x, hx, hs⟩ := Option.map_eq_some_iff.mp he
    have hr := Runs.iff_foldlM.mpr hx
    exact ⟨x, hr, of_decide_eq_true hs, hsema _ x hr⟩
  · have he : Option.map (fun x : Condvar => decide (x.mt.pc 0 = .signalBlocked 2 ∧
          x.pc 0 = .test .put [1] ∧ x.state 2 = .eating))
        ((List.replicate 6 0 ++ List.replicate 7 2 ++ List.replicate 7 0).foldlM
          (fun x i => x.step 3 i) (condvarInit 3)) = some true := by decide
    obtain ⟨x, hx, hs⟩ := Option.map_eq_some_iff.mp he
    have hr := Runs.iff_foldlM.mpr hx
    exact ⟨x, hr, of_decide_eq_true hs, hcondvar _ x hr⟩

end UCore.Philosophers
