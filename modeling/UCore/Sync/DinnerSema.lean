import UCore.Library.Run
import UCore.Sync.Philosophers
import UCore.Sync.Tokens

/-! # The states of the philosophers

What the two solutions have in common: no two neighbours eat, and a hungry philosopher has a
neighbour that eats or is about to be tested.
-/

namespace UCore.Philosophers

variable {n i j : ℕ}

theorem left_lt (hi : i < n) : left n i < n := Nat.mod_lt _ (by omega)

theorem right_lt (hi : i < n) : right n i < n := Nat.mod_lt _ (by omega)

theorem Routine.tests_lt {r : Routine} (hi : i < n) (hj : j ∈ r.tests n i) : j < n := by
  cases r with
  | take =>
    obtain rfl : j = i := by simpa [tests] using hj
    exact hi
  | put =>
    rcases (by simpa [tests] using hj : j = left n i ∨ j = right n i) with rfl | rfl
    · exact left_lt hi
    · exact right_lt hi

theorem left_right (hi : i < n) : left n (right n i) = i := by
  unfold left right
  rcases Nat.lt_or_ge (i + 1) n with h | h
  · rw [Nat.mod_eq_of_lt h, show i + 1 + n - 1 = i + n by omega, Nat.add_mod_right,
      Nat.mod_eq_of_lt hi]
  · rw [show i + 1 = n by omega, Nat.mod_self, Nat.zero_add, Nat.mod_eq_of_lt (by omega)]
    omega

theorem right_left (hi : i < n) : right n (left n i) = i := by
  unfold left right
  rcases Nat.eq_zero_or_pos i with rfl | h
  · rw [Nat.zero_add, Nat.mod_eq_of_lt (a := n - 1) (by omega), Nat.sub_add_cancel hi, Nat.mod_self]
  · rw [show i + n - 1 = i - 1 + n by omega, Nat.add_mod_right,
      Nat.mod_eq_of_lt (a := i - 1) (by omega), Nat.sub_add_cancel h, Nat.mod_eq_of_lt hi]

theorem right_ne (hn : 2 ≤ n) (hi : i < n) : right n i ≠ i := by
  unfold right
  rcases Nat.lt_or_ge (i + 1) n with h | h
  · rw [Nat.mod_eq_of_lt h]
    omega
  · rw [show i + 1 = n by omega, Nat.mod_self]
    omega

/-- No two neighbours eat, and every hungry philosopher outside `todo` has a neighbour that
eats. -/
structure Dinner (n : ℕ) (state : ℕ → PhiState) (todo : ℕ → Prop) : Prop where
  apart : ∀ i < n, state i = .eating → state (right n i) ≠ .eating
  fed : ∀ i < n, state i = .hungry →
    state (left n i) = .eating ∨ state (right n i) = .eating ∨ todo i

namespace Dinner

variable {state : ℕ → PhiState} {todo todo' : ℕ → Prop}

theorem mono (d : Dinner n state todo) (h : ∀ i, todo i → todo' i) : Dinner n state todo' :=
  ⟨d.apart, fun i hi hs => (d.fed i hi hs).imp id (Or.imp id (h i))⟩

theorem apart_left (d : Dinner n state todo) (hi : i < n) (hs : state i = .eating) :
    state (left n i) ≠ .eating := fun h => by
  have := d.apart (left n i) (left_lt hi) h
  rw [right_left hi] at this
  exact this hs

/-- A philosopher that does not eat changes its state, and itself or its neighbours will be
tested. -/
theorem set {y : PhiState} (d : Dinner n state todo) (hi : i < n) (hy : y ≠ .eating)
    (hself : y = .hungry → todo' i)
    (hnear : state i = .eating → todo' (left n i) ∧ todo' (right n i))
    (hmono : ∀ j, todo j → todo' j) : Dinner n (Function.update state i y) todo' := by
  constructor
  · intro k hk hs
    have hki : k ≠ i := by
      rintro rfl
      rw [Function.update_self] at hs
      exact hy hs
    rw [Function.update_of_ne hki] at hs
    rcases eq_or_ne (right n k) i with h | h
    · rwa [h, Function.update_self]
    · rw [Function.update_of_ne h]
      exact d.apart k hk hs
  · intro k hk hs
    rcases eq_or_ne k i with rfl | hki
    · rw [Function.update_self] at hs
      exact .inr (.inr (hself hs))
    rw [Function.update_of_ne hki] at hs
    rcases d.fed k hk hs with h | h | h
    · rcases eq_or_ne (left n k) i with hl | hl
      · have hr : right n i = k := by rw [← hl, right_left hk]
        exact .inr (.inr (hr ▸ (hnear (hl ▸ h)).2))
      · exact .inl (by rwa [Function.update_of_ne hl])
    · rcases eq_or_ne (right n k) i with hr | hr
      · have hl : left n i = k := by rw [← hr, left_right hk]
        exact .inr (.inr (hl ▸ (hnear (hr ▸ h)).1))
      · exact .inr (.inl (by rwa [Function.update_of_ne hr]))
    · exact .inr (.inr (hmono k h))

theorem eat (d : Dinner n state todo) (hn : 2 ≤ n) (hj : j < n) (hm : MayEat n state j)
    (hmono : ∀ k, k ≠ j → todo k → todo' k) :
    Dinner n (Function.update state j .eating) todo' := by
  constructor
  · intro k hk hs
    rcases eq_or_ne k j with rfl | hkj
    · rw [Function.update_of_ne (right_ne hn hk)]
      exact hm.2.2
    · rw [Function.update_of_ne hkj] at hs
      rcases eq_or_ne (right n k) j with h | h
      · have hl : left n j = k := by rw [← h, left_right hk]
        exact absurd (hl ▸ hs) hm.2.1
      · rw [Function.update_of_ne h]
        exact d.apart k hk hs
  · intro k hk hs
    rcases eq_or_ne k j with rfl | hkj
    · rw [Function.update_self] at hs
      cases hs
    rw [Function.update_of_ne hkj] at hs
    rcases d.fed k hk hs with h | h | h
    · left
      rw [Function.update_apply]
      split
      · rfl
      · exact h
    · right; left
      rw [Function.update_apply]
      split
      · rfl
      · exact h
    · exact .inr (.inr (hmono k hkj h))

theorem skip (d : Dinner n state todo) (hm : ¬MayEat n state j)
    (hmono : ∀ k, k ≠ j → todo k → todo' k) : Dinner n state todo' := by
  refine ⟨d.apart, fun k hk hs => ?_⟩
  rcases d.fed k hk hs with h | h | h
  · exact .inl h
  · exact .inr (.inl h)
  · rcases eq_or_ne k j with rfl | hkj
    · by_contra hc
      simp only [not_or] at hc
      exact hm ⟨hs, hc.1, hc.2.1⟩
    · exact .inr (.inr (hmono k hkj h))

end Dinner

/-- What the philosophers rely on: no two neighbours eat, a philosopher that has returned from its
first routine eats, and while no philosopher is inside every hungry one has a neighbour that
eats. -/
structure Safe (n : ℕ) (state : ℕ → PhiState) (returned inside : ℕ → Prop) : Prop where
  exclusive : ∀ i < n, ∀ j, j = left n i ∨ j = right n i →
    ¬(state i = .eating ∧ state j = .eating)
  returned : ∀ i < n, returned i → state i = .eating
  served : (∀ i < n, ¬inside i) → ∀ i < n, state i = .hungry →
    ∃ j, (j = left n i ∨ j = right n i) ∧ state j = .eating

theorem Dinner.safe {state : ℕ → PhiState} {returned inside todo : ℕ → Prop}
    (d : Dinner n state todo) (hr : ∀ i < n, returned i → state i = .eating)
    (ht : ∀ i, todo i → ∃ p < n, inside p) : Safe n state returned inside := by
  refine ⟨?_, hr, fun hi i hin hs => ?_⟩
  · rintro i hi j (rfl | rfl) ⟨hs, hj⟩
    · exact d.apart_left hi hs hj
    · exact d.apart i hi hs hj
  · rcases d.fed i hin hs with h | h | h
    · exact ⟨_, .inl rfl, h⟩
    · exact ⟨_, .inr rfl, h⟩
    · obtain ⟨p, hp, hin⟩ := ht i h
      exact absurd hin (hi p hp)

/-! ## The philosophers with semaphores

The semaphore of a philosopher has a token exactly between the signal after its successful test and
its return from `phi_take_forks_sema`.
-/

open Library Sync Semaphore

namespace SemaPc

/-- The philosophers that the routine has still to test. -/
def todo : SemaPc → List ℕ
  | test _ todo | signal _ _ todo => todo
  | _ => []

/-- Between the assignment of `HUNGRY` and the return from `phi_take_forks_sema`. -/
def Waiting : SemaPc → Prop
  | test .take _ | signal .take _ _ | takeDown | takeBlocked => True
  | _ => False

/-- The states that a philosopher may have at a statement. -/
def Fits (st : PhiState) : SemaPc → Prop
  | idle .take | enterBlocked .take | enter .take => st = .thinking
  | idle .put | enterBlocked .put | enter .put => st = .eating
  | test .take _ | signal .take _ _ | takeDown | takeBlocked => st ≠ .thinking
  | test .put _ | signal .put _ _ => st = .thinking

theorem Fits.waiting {y : SemaPc} (h : y.Fits .hungry) : y.Waiting := by
  unfold Fits at h
  split at h <;> trivial

theorem Waiting.fits {y : SemaPc} {st : PhiState} (h : y.Waiting) (hs : st ≠ .thinking) :
    y.Fits st := by
  unfold Waiting at h
  split at h <;> first | exact hs | exact h.elim

end SemaPc

namespace Sema

/-- The signal for the philosopher is given, and it has not returned. -/
structure Granted (x : Sema) (j : ℕ) : Prop where
  eating : x.state j = .eating
  waiting : (x.pc j).Waiting
  signalled : ∀ p r todo, x.pc p ≠ .signal r j todo

structure Inv (n : ℕ) (x : Sema) (owner : Option ℕ) : Prop where
  lock : x.mutex.Lock (fun i => ∃ r, x.pc i = .enterBlocked r) x.Inside owner
  outside : ∀ i, n ≤ i → x.pc i = .idle .take
  fits : ∀ i, (x.pc i).Fits (x.state i)
  todo : ∀ i, ∀ j ∈ (x.pc i).todo, j < n
  signal : ∀ i r j todo, x.pc i = .signal r j todo → x.state j = .eating ∧ (x.pc j).Waiting
  tokens : ∀ j, ∃ k ≤ 1, (x.s j).Tokens (fun p => p = j ∧ x.pc p = .takeBlocked) k ∧
    (0 < k → x.Granted j)
  dinner : Dinner n x.state fun j => ∃ p, j ∈ (x.pc p).todo

theorem init (n : ℕ) : Inv n semaInit none := by
  refine ⟨⟨.one (by simp [semaInit]), ?_⟩, fun _ _ => rfl, fun _ => rfl, ?_, ?_, fun j => ?_, ?_⟩
  · simp [semaInit, Inside]
  · simp [semaInit, SemaPc.todo]
  · simp [semaInit]
  · exact ⟨0, by omega, .zero (by simp [semaInit]), by simp⟩
  · exact ⟨by simp [semaInit], by simp [semaInit]⟩

variable {n i : ℕ} {x t : Sema} {owner owner' : Option ℕ} {y z : SemaPc}

theorem pc_self (hpc : t.pc = Function.update x.pc i z) : t.pc i = z := by
  rw [hpc, Function.update_self]

theorem pc_ne (hpc : t.pc = Function.update x.pc i z) {p : ℕ} (hp : p ≠ i) : t.pc p = x.pc p := by
  rw [hpc, Function.update_of_ne hp]

theorem waiting_update (hpc : t.pc = Function.update x.pc i z)
    (hw : (x.pc i).Waiting → z.Waiting) (p : ℕ) (h : (x.pc p).Waiting) : (t.pc p).Waiting := by
  rcases eq_or_ne p i with rfl | hp
  · rw [pc_self hpc]
    exact hw h
  · rwa [pc_ne hpc hp]

theorem blocked_update (hpc : t.pc = Function.update x.pc i z)
    (hb : z = .takeBlocked ↔ x.pc i = .takeBlocked) (l p : ℕ) :
    (p = l ∧ t.pc p = .takeBlocked) ↔ p = l ∧ x.pc p = .takeBlocked := by
  rcases eq_or_ne p i with rfl | hp
  · rw [pc_self hpc, hb]
  · rw [pc_ne hpc hp]

theorem signal_update (hpc : t.pc = Function.update x.pc i z)
    (hs : ∀ r j todo, z ≠ .signal r j todo)
    {p j : ℕ} {r : Routine} {todo : List ℕ} (h : t.pc p = .signal r j todo) :
    x.pc p = .signal r j todo := by
  rcases eq_or_ne p i with rfl | hp
  · rw [pc_self hpc] at h
    exact absurd h (hs r j todo)
  · rwa [pc_ne hpc hp] at h

theorem Inv.move (k : Inv n x owner) (hi : i < n) (hpc : t.pc = Function.update x.pc i z)
    (hl : t.mutex.Lock (fun j => ∃ r, t.pc j = .enterBlocked r) t.Inside owner')
    (hf : z.Fits (t.state i)) (hfo : ∀ p, p ≠ i → (x.pc p).Fits (t.state p))
    (ht : ∀ j ∈ z.todo, j < n)
    (hs : ∀ p r j todo, t.pc p = .signal r j todo → t.state j = .eating ∧ (t.pc j).Waiting)
    (hk : ∀ j, ∃ c ≤ 1, (t.s j).Tokens (fun p => p = j ∧ t.pc p = .takeBlocked) c ∧
      (0 < c → t.Granted j))
    (hd : Dinner n t.state fun j => ∃ p, j ∈ (t.pc p).todo) : Inv n t owner' := by
  refine ⟨hl, fun j hj => ?_, fun p => ?_, fun p j hj => ?_, hs, hk, hd⟩
  · rw [pc_ne hpc (by omega)]
    exact k.outside j hj
  · rcases eq_or_ne p i with rfl | hp
    · rwa [pc_self hpc]
    · rw [pc_ne hpc hp]
      exact hfo p hp
  · rcases eq_or_ne p i with rfl | hp
    · rw [pc_self hpc] at hj
      exact ht j hj
    · rw [pc_ne hpc hp] at hj
      exact k.todo p j hj

theorem Inv.goto (k : Inv n x owner) (hi : i < n) (hpc : t.pc = Function.update x.pc i z)
    (hst : t.state = x.state) (hsem : t.s = x.s)
    (hl : t.mutex.Lock (fun j => ∃ r, t.pc j = .enterBlocked r) t.Inside owner')
    (hf : z.Fits (x.state i)) (hw : (x.pc i).Waiting → z.Waiting)
    (hs : ∀ r j todo, z ≠ .signal r j todo)
    (ht : ∀ j ∈ z.todo, j ∈ (x.pc i).todo) (hb : z = .takeBlocked ↔ x.pc i = .takeBlocked)
    (hd : Dinner n x.state fun j => ∃ p, j ∈ (t.pc p).todo) : Inv n t owner' := by
  refine k.move hi hpc hl (hst ▸ hf) (fun p _ => hst ▸ k.fits p) (fun j hj => k.todo i j (ht j hj))
    (fun p r j todo h => ?_) (fun j => ?_) (hst ▸ hd)
  · obtain ⟨h₁, h₂⟩ := k.signal p r j todo (signal_update hpc hs h)
    exact ⟨hst ▸ h₁, waiting_update hpc hw j h₂⟩
  · obtain ⟨c, hc, htok, hg⟩ := k.tokens j
    refine ⟨c, hc, hsem ▸ htok.congr (blocked_update hpc hb j), fun h => ?_⟩
    obtain ⟨g₁, g₂, g₃⟩ := hg h
    exact ⟨hst ▸ g₁, waiting_update hpc hw j g₂,
      fun p r todo hp => g₃ p r todo (signal_update hpc hs hp)⟩

section Step

theorem Inv.todo_of_nil (k : Inv n x owner) (hx : (x.pc i).todo = []) (z : SemaPc) :
    Dinner n x.state fun j => ∃ p, j ∈ (Function.update x.pc i z p).todo := by
  refine k.dinner.mono fun j ⟨p, hp⟩ => ⟨p, ?_⟩
  rcases eq_or_ne p i with rfl | hpi
  · simp [hx] at hp
  · rwa [Function.update_of_ne hpi]

theorem Inv.idle {r : Routine} (k : Inv n x owner) (hi : i < n) (hx : x.pc i = .idle r) :
    ∃ owner', Inv n ((x.setMutex (x.mutex.down i).2).goto i
      (if (x.mutex.down i).1 then .enter r else .enterBlocked r)) owner' := by
  have hfit := k.fits i
  rw [hx] at hfit
  have hwait : ¬(x.pc i).Waiting := by simp [hx, SemaPc.Waiting]
  have hdin := k.todo_of_nil (i := i) (by rw [hx]; rfl)
  cases hd : (x.mutex.down i).1 with
  | true =>
    refine ⟨some i, k.goto (z := .enter r) hi (by simp [Sema.goto, setMutex]) rfl rfl ?_ ?_
      (fun h => absurd h hwait) (by simp) (by simp [SemaPc.todo]) (by simp [hx]) (hdin _)⟩
    · refine (k.lock.enter hd).congr (fun j => ?_) (fun j => ?_)
      · rcases eq_or_ne j i with rfl | hj <;> simp [Sema.goto, setMutex, *]
      · rcases eq_or_ne j i with rfl | hj <;> simp [Sema.goto, setMutex, Inside, *]
    · cases r <;> exact hfit
  | false =>
    refine ⟨owner, k.goto (z := .enterBlocked r) hi (by simp [Sema.goto, setMutex]) rfl rfl ?_ ?_
      (fun h => absurd h hwait) (by simp) (by simp [SemaPc.todo]) (by simp [hx]) (hdin _)⟩
    · refine (k.lock.sleep hd (by simp [hx])).congr (fun j => ?_) (fun j => ?_)
      · rcases eq_or_ne j i with rfl | hj <;> simp [Sema.goto, setMutex, *]
      · rcases eq_or_ne j i with rfl | hj <;> simp [Sema.goto, setMutex, Inside, *]
    · cases r <;> exact hfit

theorem Inv.enterBlocked {r : Routine} (k : Inv n x owner) (hi : i < n)
    (hx : x.pc i = .enterBlocked r) (hq : i ∉ x.mutex.queue) :
    ∃ owner', Inv n (x.goto i (.enter r)) owner' := by
  have hfit := k.fits i
  rw [hx] at hfit
  refine ⟨some i, k.goto (z := .enter r) hi rfl rfl rfl ?_ ?_ (by simp [hx, SemaPc.Waiting])
    (by simp) (by simp [SemaPc.todo]) (by simp [hx]) (k.todo_of_nil (by rw [hx]; rfl) _)⟩
  · refine (k.lock.wake ⟨r, hx⟩ hq).congr (fun j => ?_) (fun j => ?_)
    · rcases eq_or_ne j i with rfl | hj <;> simp [Sema.goto, *]
    · rcases eq_or_ne j i with rfl | hj <;> simp [Sema.goto, Inside, *]
  · cases r <;> exact hfit

theorem Inv.leave (k : Inv n x owner) (hi : i < n) (hin : x.Inside i)
    (ht : (x.pc i).todo = []) (hf : z.Fits (x.state i)) (hw : (x.pc i).Waiting → z.Waiting)
    (hs : ∀ r j todo, z ≠ .signal r j todo) (hz : z = .takeDown ∨ z = .idle .take) :
    ∃ owner', Inv n ((x.setMutex x.mutex.up.2).goto i z) owner' := by
  have hnb : ∀ r, x.pc i ≠ .enterBlocked r := fun r h => by simp [Inside, h] at hin
  refine ⟨none, k.goto (z := z) hi rfl rfl rfl ?_ hf hw hs ?_ ?_ (k.todo_of_nil ht _)⟩
  · refine (k.lock.leave hin).congr (fun j => ?_) (fun j => ?_)
    · rcases eq_or_ne j i with rfl | hj
      · rcases hz with rfl | rfl <;> simp [Sema.goto, hnb]
      · simp [Sema.goto, setMutex, hj]
    · rcases eq_or_ne j i with rfl | hj
      · rcases hz with rfl | rfl <;> simp [Sema.goto, Inside]
      · simp [Sema.goto, setMutex, Inside, hj]
  · rcases hz with rfl | rfl <;> simp [SemaPc.todo]
  · have : x.pc i ≠ .takeBlocked := fun h => by simp [Inside, h] at hin
    rcases hz with rfl | rfl <;> simp [this]

theorem Inv.stay_lock (k : Inv n x owner) (hin : x.Inside i)
    (hpc : t.pc = Function.update x.pc i z) (hm : t.mutex = x.mutex)
    (hzi : ∀ u : Sema, u.pc i = z → u.Inside i) :
    t.mutex.Lock (fun j => ∃ r, t.pc j = .enterBlocked r) t.Inside owner := by
  have hself : t.pc i = z := by rw [hpc, Function.update_self]
  rw [hm]
  refine k.lock.congr (fun j => ?_) (fun j => ?_)
  · rcases eq_or_ne j i with rfl | hj
    · have h₁ : ∀ r, x.pc j ≠ .enterBlocked r := fun r h => by simp [Inside, h] at hin
      have h₂ : ∀ r, t.pc j ≠ .enterBlocked r := fun r h => by
        have := hzi t hself
        simp [Inside, h] at this
      simp [h₁, h₂]
    · simp [hpc, hj]
  · rcases eq_or_ne j i with rfl | hj
    · exact ⟨fun _ => hin, fun _ => hzi t hself⟩
    · simp [Inside, hpc, hj]

theorem Inv.test_fail {r : Routine} {j : ℕ} {todo : List ℕ} (k : Inv n x owner) (hi : i < n)
    (hx : x.pc i = .test r (j :: todo)) (hm : ¬MayEat n x.state j) :
    Inv n (x.goto i (.test r todo)) owner := by
  have hfit := k.fits i
  rw [hx] at hfit
  refine k.goto (z := .test r todo) hi rfl rfl rfl ?_ ?_ ?_ (by simp) ?_ (by simp [hx]) ?_
  · exact k.stay_lock (by simp [Inside, hx]) rfl rfl (by intro u hu; simp [Inside, hu])
  · cases r <;> exact hfit
  · rw [hx]
    cases r <;> exact id
  · intro l hl
    simp [hx, SemaPc.todo] at hl ⊢
    exact .inr hl
  · refine k.dinner.skip hm fun l hl ⟨p, hp⟩ => ⟨p, ?_⟩
    rcases eq_or_ne p i with rfl | hpi
    · simpa [hx, SemaPc.todo, hl, Sema.goto] using hp
    · simpa [Sema.goto, hpi] using hp

theorem inside_signal {r : Routine} {j : ℕ} {todo : List ℕ} {p : ℕ}
    (h : x.pc p = .signal r j todo) : x.Inside p := by simp [Inside, h]

theorem Inv.test_pass {r : Routine} {j : ℕ} {todo : List ℕ} (k : Inv n x owner) (hn : 2 ≤ n)
    (hi : i < n) (hx : x.pc i = .test r (j :: todo)) (hm : MayEat n x.state j) :
    Inv n ((x.set j .eating).goto i (.signal r j todo)) owner := by
  have hin : x.Inside i := by simp [Inside, hx]
  have hfit := k.fits i
  rw [hx] at hfit
  have hjw : (x.pc j).Waiting := (hm.1 ▸ k.fits j).waiting
  have hpc : ((x.set j .eating).goto i (.signal r j todo)).pc =
      Function.update x.pc i (.signal r j todo) := rfl
  have hsj : ((x.set j .eating).goto i (.signal r j todo)).state j = .eating :=
    Function.update_self _ _ _
  have hsne : ∀ p, p ≠ j → ((x.set j .eating).goto i (.signal r j todo)).state p = x.state p :=
    fun p hp => Function.update_of_ne hp _ _
  have hwait : (x.pc i).Waiting → (SemaPc.signal r j todo).Waiting := by
    rw [hx]
    cases r <;> exact id
  refine k.move hi hpc (k.stay_lock hin hpc rfl fun u hu => inside_signal hu) ?_
    (fun p hp => ?_) (fun l hl => k.todo i l ?_) (fun p r' l todo' h => ?_) (fun l => ?_) ?_
  · cases r with
    | take =>
      rcases eq_or_ne i j with rfl | hij
      · rw [hsj]
        nofun
      · rw [hsne i hij]
        exact hfit
    | put =>
      have hij : i ≠ j := by
        rintro rfl
        cases hfit.symm.trans hm.1
      rw [hsne i hij]
      exact hfit
  · rcases eq_or_ne p j with rfl | hpj
    · rw [hsj]
      exact hjw.fits nofun
    · rw [hsne p hpj]
      exact k.fits p
  · rw [hx]
    exact List.mem_cons_of_mem j hl
  · rcases eq_or_ne p i with rfl | hpi
    · rw [pc_self hpc] at h
      cases h
      exact ⟨hsj, waiting_update hpc hwait j hjw⟩
    · rw [pc_ne hpc hpi] at h
      exact absurd (k.lock.unique (inside_signal h) hin) hpi
  · obtain ⟨c, hc, htok, hg⟩ := k.tokens l
    refine ⟨c, hc, htok.congr (blocked_update hpc (by simp [hx]) l), fun h => ?_⟩
    obtain ⟨g₁, g₂, g₃⟩ := hg h
    have hlj : l ≠ j := by
      rintro rfl
      cases g₁.symm.trans hm.1
    refine ⟨(hsne l hlj).trans g₁, waiting_update hpc hwait l g₂, fun p r' todo' hp => ?_⟩
    rcases eq_or_ne p i with rfl | hpi
    · rw [pc_self hpc] at hp
      cases hp
      exact hlj rfl
    · exact g₃ p r' todo' (pc_ne hpc hpi ▸ hp)
  · refine k.dinner.eat hn (k.todo i j (by simp [hx, SemaPc.todo])) hm fun l hl ⟨p, hp⟩ => ⟨p, ?_⟩
    rcases eq_or_ne p i with rfl | hpi
    · rw [pc_self hpc]
      simpa [hx, SemaPc.todo, hl] using hp
    · rwa [pc_ne hpc hpi]

theorem Inv.no_signal (k : Inv n x owner) (hin : x.Inside i)
    (hpc : t.pc = Function.update x.pc i z) (hz : ∀ r j todo, z ≠ .signal r j todo) (p : ℕ)
    (r : Routine) (j : ℕ) (todo : List ℕ) : t.pc p ≠ .signal r j todo := by
  intro h
  rcases eq_or_ne p i with rfl | hpi
  · rw [pc_self hpc] at h
    exact hz r j todo h
  · rw [pc_ne hpc hpi] at h
    exact hpi (k.lock.unique (inside_signal h) hin)

theorem Inv.signal_up {r : Routine} {j : ℕ} {todo : List ℕ} (k : Inv n x owner) (hi : i < n)
    (hx : x.pc i = .signal r j todo) :
    Inv n ((x.setS j (x.s j).up.2).goto i (.test r todo)) owner := by
  have hin : x.Inside i := inside_signal hx
  have hfit := k.fits i
  rw [hx] at hfit
  have hpc : ((x.setS j (x.s j).up.2).goto i (.test r todo)).pc =
      Function.update x.pc i (.test r todo) := rfl
  have hwait : (x.pc i).Waiting → (SemaPc.test r todo).Waiting := by
    rw [hx]
    cases r <;> exact id
  have hsig := k.no_signal hin hpc (by simp)
  have hblock := blocked_update hpc (by simp [hx])
  refine k.move hi hpc (k.stay_lock hin hpc rfl (by intro u hu; simp [Inside, hu])) ?_
    (fun p _ => k.fits p) (fun l hl => k.todo i l (by rw [hx]; exact hl))
    (fun p r' l todo' h => absurd h (hsig p r' l todo')) (fun l => ?_) ?_
  · cases r <;> exact hfit
  · obtain ⟨c, hc, htok, hg⟩ := k.tokens l
    rcases eq_or_ne l j with rfl | hlj
    · have hc0 : c = 0 := by
        by_contra h
        exact (hg (Nat.pos_of_ne_zero h)).signalled i r todo hx
      subst hc0
      obtain ⟨h₁, h₂⟩ := k.signal i r l todo hx
      have hup : ((x.setS l (x.s l).up.2).goto i (.test r todo)).s l = (x.s l).up.2 :=
        Function.update_self _ _ _
      refine ⟨1, le_rfl, ?_, fun _ => ⟨h₁, waiting_update hpc hwait l h₂,
        fun p r' todo' => hsig p r' l todo'⟩⟩
      rw [hup]
      exact (htok.up (by omega)).congr (hblock l)
    · have hsl : ((x.setS j (x.s j).up.2).goto i (.test r todo)).s l = x.s l :=
        Function.update_of_ne hlj _ _
      refine ⟨c, hc, ?_, fun h => ?_⟩
      · rw [hsl]
        exact htok.congr (hblock l)
      · obtain ⟨g₁, g₂, -⟩ := hg h
        exact ⟨g₁, waiting_update hpc hwait l g₂, fun p r' todo' => hsig p r' l todo'⟩
  · refine k.dinner.mono fun l ⟨p, hp⟩ => ⟨p, ?_⟩
    rcases eq_or_ne p i with rfl | hpi
    · rw [pc_self hpc]
      rw [hx] at hp
      exact hp
    · rwa [pc_ne hpc hpi]

/-- A routine gives its philosopher a state. -/
theorem Inv.enter {r : Routine} (k : Inv n x owner) (hi : i < n) (hx : x.pc i = .enter r) :
    Inv n ((x.set i r.state).goto i (.test r (r.tests n i))) owner := by
  have hin : x.Inside i := by simp [Inside, hx]
  have hfit := k.fits i
  rw [hx] at hfit
  have hpc : ((x.set i r.state).goto i (.test r (r.tests n i))).pc =
      Function.update x.pc i (.test r (r.tests n i)) := rfl
  have hsi : ((x.set i r.state).goto i (.test r (r.tests n i))).state i = r.state :=
    Function.update_self _ _ _
  have hsne : ∀ p, p ≠ i →
      ((x.set i r.state).goto i (.test r (r.tests n i))).state p = x.state p :=
    fun p hp => Function.update_of_ne hp _ _
  have hsig := k.no_signal hin hpc (by simp)
  have hnw : ¬(x.pc i).Waiting := by simp [hx, SemaPc.Waiting]
  refine k.move hi hpc (k.stay_lock hin hpc rfl (by intro u hu; simp [Inside, hu])) ?_
    (fun p hp => ?_) (fun l hl => ?_) (fun p r' l todo' h => absurd h (hsig p r' l todo'))
    (fun l => ?_) ?_
  · rw [hsi]
    cases r <;> simp [SemaPc.Fits, Routine.state]
  · rw [hsne p hp]
    exact k.fits p
  · exact r.tests_lt hi hl
  · obtain ⟨c, hc, htok, hg⟩ := k.tokens l
    refine ⟨c, hc, htok.congr (blocked_update hpc (by simp [hx]) l), fun h => ?_⟩
    obtain ⟨g₁, g₂, -⟩ := hg h
    have hli : l ≠ i := fun he => hnw (he ▸ g₂)
    exact ⟨(hsne l hli).trans g₁, waiting_update hpc (fun h => absurd h hnw) l g₂,
      fun p r' todo' => hsig p r' l todo'⟩
  · have htodo : ∀ l, l ∈ r.tests n i →
        ∃ p, l ∈ (((x.set i r.state).goto i (.test r (r.tests n i))).pc p).todo := fun l hl =>
      ⟨i, by rw [pc_self hpc]; exact hl⟩
    refine k.dinner.set hi (by cases r <;> simp [Routine.state]) (fun h => htodo i ?_)
      (fun h => ?_) fun l ⟨p, hp⟩ => ⟨p, ?_⟩
    · cases r <;> simp [Routine.state, Routine.tests] at h ⊢
    · cases r with
      | take => cases hfit.symm.trans h
      | put => exact ⟨htodo _ (by simp [Routine.tests]), htodo _ (by simp [Routine.tests])⟩
    · rcases eq_or_ne p i with rfl | hpi
      · simp [hx, SemaPc.todo] at hp
      · rwa [pc_ne hpc hpi]

/-- A philosopher returns from `phi_take_forks_sema` with the token of its signal. -/
theorem Inv.returns (k : Inv n x owner) (hi : i < n)
    (hx : x.pc i = .takeDown ∨ x.pc i = .takeBlocked)
    (hpc : t.pc = Function.update x.pc i (.idle .put)) (hst : t.state = x.state)
    (hm : t.mutex = x.mutex) (hs : ∀ l, l ≠ i → t.s l = x.s l) (hg : x.Granted i)
    (htok : (t.s i).Tokens (fun p => p = i ∧ t.pc p = .takeBlocked) 0) : Inv n t owner := by
  have hsig : ∀ {p r j todo}, t.pc p = .signal r j todo → x.pc p = .signal r j todo :=
    signal_update hpc (by simp)
  have hwait : ∀ p, p ≠ i → (x.pc p).Waiting → (t.pc p).Waiting := fun p hp h => by
    rwa [pc_ne hpc hp]
  refine k.move hi hpc ?_ (by rw [hst]; exact hg.eating) (fun p _ => hst ▸ k.fits p)
    (by simp [SemaPc.todo]) (fun p r j todo h => ?_) (fun l => ?_) ?_
  · rw [hm]
    refine k.lock.congr (fun j => ?_) (fun j => ?_)
    · rcases eq_or_ne j i with rfl | hj
      · rcases hx with hx | hx <;> simp [pc_self hpc, hx]
      · simp [pc_ne hpc hj]
    · rcases eq_or_ne j i with rfl | hj
      · rcases hx with hx | hx <;> simp [Inside, pc_self hpc, hx]
      · simp [Inside, pc_ne hpc hj]
  · obtain ⟨h₁, h₂⟩ := k.signal p r j todo (hsig h)
    have hji : j ≠ i := by
      rintro rfl
      exact hg.signalled p r todo (hsig h)
    exact ⟨hst ▸ h₁, hwait j hji h₂⟩
  · rcases eq_or_ne l i with rfl | hl
    · exact ⟨0, by omega, htok, by simp⟩
    · obtain ⟨c, hc, ht, hgl⟩ := k.tokens l
      refine ⟨c, hc, ?_, fun h => ?_⟩
      · rw [hs l hl]
        refine ht.congr fun p => ?_
        rcases eq_or_ne p i with rfl | hp
        · simp [hl.symm]
        · rw [pc_ne hpc hp]
      · obtain ⟨g₁, g₂, g₃⟩ := hgl h
        exact ⟨hst ▸ g₁, hwait l hl g₂, fun p r todo hp => g₃ p r todo (hsig hp)⟩
  · rw [hst]
    refine k.dinner.mono fun l ⟨p, hp⟩ => ⟨p, ?_⟩
    rcases eq_or_ne p i with rfl | hpi
    · rcases hx with hx | hx <;> simp [hx, SemaPc.todo] at hp
    · rwa [pc_ne hpc hpi]

theorem Inv.takeDown (k : Inv n x owner) (hi : i < n) (hx : x.pc i = .takeDown) :
    Inv n ((x.setS i ((x.s i).down i).2).goto i
      (if ((x.s i).down i).1 then .idle .put else .takeBlocked)) owner := by
  obtain ⟨c, hc, htok, hg⟩ := k.tokens i
  have hs : ∀ z l, l ≠ i → ((x.setS i ((x.s i).down i).2).goto i z).s l = x.s l :=
    fun z l hl => Function.update_of_ne hl _ _
  have hself : ∀ z, ((x.setS i ((x.s i).down i).2).goto i z).s i = ((x.s i).down i).2 :=
    fun z => Function.update_self _ _ _
  cases hd : ((x.s i).down i).1 with
  | true =>
    obtain ⟨hpos, ht⟩ := htok.down_true hd
    obtain rfl : c = 1 := by omega
    refine k.returns hi (.inl hx) rfl rfl rfl (hs _) (hg hpos) ?_
    rw [hself]
    refine ht.congr fun p => ?_
    rcases eq_or_ne p i with rfl | hp
    · simp [hx, Sema.goto]
    · simp [hp]
  | false =>
    have ht := htok.down_false hd (by simp [hx])
    have hpc : ((x.setS i ((x.s i).down i).2).goto i .takeBlocked).pc =
        Function.update x.pc i .takeBlocked := rfl
    have hsig : ∀ {p r j todo}, ((x.setS i ((x.s i).down i).2).goto i .takeBlocked).pc p =
        .signal r j todo → x.pc p = .signal r j todo := signal_update hpc (by simp)
    have hwait := waiting_update hpc fun _ => trivial
    have hfit := k.fits i
    rw [hx] at hfit
    refine k.move hi hpc ?_ hfit (fun p _ => k.fits p) (by simp [SemaPc.todo])
      (fun p r j todo h => ?_) (fun l => ?_) ?_
    · refine k.lock.congr (fun j => ?_) (fun j => ?_)
      · rcases eq_or_ne j i with rfl | hj
        · simp [pc_self hpc, hx]
        · simp [pc_ne hpc hj]
      · rcases eq_or_ne j i with rfl | hj
        · simp [Inside, pc_self hpc, hx]
        · simp [Inside, pc_ne hpc hj]
    · obtain ⟨h₁, h₂⟩ := k.signal p r j todo (hsig h)
      exact ⟨h₁, hwait j h₂⟩
    · rcases eq_or_ne l i with rfl | hl
      · refine ⟨c, hc, ?_, fun h => ?_⟩
        · rw [if_neg (by simp), hself]
          refine ht.congr fun p => ?_
          rcases eq_or_ne p l with rfl | hp
          · simp [pc_self hpc]
          · simp [hp]
        · obtain ⟨g₁, g₂, g₃⟩ := hg h
          exact ⟨g₁, hwait l g₂, fun p r todo hp => g₃ p r todo (hsig hp)⟩
      · obtain ⟨e, he, hte, hge⟩ := k.tokens l
        refine ⟨e, he, ?_, fun h => ?_⟩
        · rw [if_neg (by simp), hs _ l hl]
          refine hte.congr fun p => ?_
          rcases eq_or_ne p i with rfl | hp
          · simp [hl.symm]
          · rw [pc_ne hpc hp]
        · obtain ⟨g₁, g₂, g₃⟩ := hge h
          exact ⟨g₁, hwait l g₂, fun p r todo hp => g₃ p r todo (hsig hp)⟩
    · exact k.todo_of_nil (i := i) (by rw [hx]; rfl) .takeBlocked

theorem Inv.takeBlocked (k : Inv n x owner) (hi : i < n) (hx : x.pc i = .takeBlocked)
    (hq : i ∉ (x.s i).queue) : Inv n (x.goto i (.idle .put)) owner := by
  obtain ⟨c, hc, htok, hg⟩ := k.tokens i
  obtain ⟨hpos, ht⟩ := htok.wake ⟨rfl, hx⟩ hq
  obtain rfl : c = 1 := by omega
  refine k.returns hi (.inr hx) rfl rfl rfl (fun _ _ => rfl) (hg hpos) (ht.congr fun p => ?_)
  rcases eq_or_ne p i with rfl | hp
  · simp [Sema.goto]
  · simp [hp]

theorem Inv.step (k : Inv n x owner) (hn : 2 ≤ n) (ht : x.step n i = some t) :
    ∃ owner', Inv n t owner' := by
  obtain ⟨hi, ht⟩ : i < n ∧ x.advance n i = some t := by simpa [Sema.step] using ht
  unfold Sema.advance at ht
  have hfit := k.fits i
  split at ht <;> rename_i hx
  · obtain rfl := Option.some.inj ht
    exact k.idle hi hx
  · split at ht
    · cases ht
    · obtain rfl := Option.some.inj ht
      exact k.enterBlocked hi hx ‹_›
  · obtain rfl := Option.some.inj ht
    exact ⟨owner, k.enter hi hx⟩
  · obtain rfl := Option.some.inj ht
    split
    · exact ⟨owner, k.test_pass hn hi hx ‹_›⟩
    · exact ⟨owner, k.test_fail hi hx ‹_›⟩
  · obtain rfl := Option.some.inj ht
    exact ⟨owner, k.signal_up hi hx⟩
  · obtain rfl := Option.some.inj ht
    rw [hx] at hfit
    exact k.leave hi (by simp [Inside, hx]) (by rw [hx]; rfl) hfit (fun _ => trivial) (by simp)
      (.inl rfl)
  · obtain rfl := Option.some.inj ht
    rw [hx] at hfit
    exact k.leave hi (by simp [Inside, hx]) (by rw [hx]; rfl) hfit
      (by simp [hx, SemaPc.Waiting]) (by simp) (.inr rfl)
  · obtain rfl := Option.some.inj ht
    exact ⟨owner, k.takeDown hi hx⟩
  · split at ht
    · cases ht
    · obtain rfl := Option.some.inj ht
      exact ⟨owner, k.takeBlocked hi hx ‹_›⟩

theorem Inv.safe (k : Inv n x owner) : Safe n x.state x.Returned x.Inside := by
  refine k.dinner.safe (fun i _ hr => ?_) fun j ⟨p, hp⟩ => ⟨p, ?_, ?_⟩
  · have hfit := k.fits i
    rw [hr] at hfit
    exact hfit
  · by_contra h
    rw [k.outside p (by omega)] at hp
    simp [SemaPc.todo] at hp
  · cases hx : x.pc p <;> simp [Inside, hx, SemaPc.todo] at hp ⊢

end Step

end Sema

end UCore.Philosophers
