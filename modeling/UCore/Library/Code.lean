import Mathlib.Tactic.Common

/-! # Programs that may panic

A program changes a state and returns a value, or it panics. Its outcomes are described by a
postcondition for the returns and one for the panics. A loop repeats a program until it leaves the
loop with a result. Fuel bounds the repetitions; an invariant with a measure that every repetition
decreases shows that it is never spent.
-/

namespace Library

variable {ε σ α β : Type}

def Code (ε σ α : Type) : Type := σ → Except ε (α × σ)

namespace Code

def pure (a : α) : Code ε σ α := fun s => .ok (a, s)

def bind (m : Code ε σ α) (f : α → Code ε σ β) : Code ε σ β := fun s =>
  match m s with
  | .ok (a, t) => f a t
  | .error e => .error e

instance : Monad (Code ε σ) where
  pure := pure
  bind := bind

def get : Code ε σ σ := fun s => .ok (s, s)

def modify (f : σ → σ) : Code ε σ Unit := fun s => .ok ((), f s)

def panic (e : ε) : Code ε σ α := fun _ => .error e

/-- Panics unless the condition holds of the state. -/
def assert (p : σ → Prop) [DecidablePred p] (e : ε) : Code ε σ Unit := fun s =>
  if p s then .ok ((), s) else .error e

/-- Every return of the program from `s` satisfies `Q`, and every panic `E`. -/
def Wp (m : Code ε σ α) (s : σ) (E : ε → Prop) (Q : α → σ → Prop) : Prop :=
  match m s with
  | .ok (a, t) => Q a t
  | .error e => E e

section Run

variable {m : Code ε σ α} {f : α → Code ε σ β} {s t : σ} {a : α} {e : ε}

@[simp] theorem pure_run : (Pure.pure a : Code ε σ α) s = .ok (a, s) := rfl

@[simp] theorem get_run : (get : Code ε σ σ) s = .ok (s, s) := rfl

@[simp] theorem modify_run (g : σ → σ) : (modify g : Code ε σ Unit) s = .ok ((), g s) := rfl

@[simp] theorem panic_run : (panic e : Code ε σ α) s = .error e := rfl

theorem bind_ok (h : m s = .ok (a, t)) : (m >>= f) s = f a t := by
  change Code.bind m f s = _
  rw [Code.bind, h]

theorem bind_error (h : m s = .error e) : (m >>= f) s = .error e := by
  change Code.bind m f s = _
  rw [Code.bind, h]

theorem bind_eq_ok {b : β} {u : σ} (h : (m >>= f) s = .ok (b, u)) :
    ∃ a t, m s = .ok (a, t) ∧ f a t = .ok (b, u) := by
  change Code.bind m f s = _ at h
  unfold Code.bind at h
  split at h
  · rename_i a t hm
    exact ⟨a, t, hm, h⟩
  · cases h

theorem assert_true {p : σ → Prop} [DecidablePred p] (h : p s) :
    (assert p e : Code ε σ Unit) s = .ok ((), s) := if_pos h

theorem assert_false {p : σ → Prop} [DecidablePred p] (h : ¬ p s) :
    (assert p e : Code ε σ Unit) s = .error e := if_neg h

theorem assert_bind {p : σ → Prop} [DecidablePred p] {f : Unit → Code ε σ β} (h : p s) :
    (assert p e >>= f) s = f () s := bind_ok (assert_true h)

theorem modify_bind {g : σ → σ} {f : Unit → Code ε σ β} : (modify g >>= f) s = f () (g s) := rfl

theorem get_bind {f : σ → Code ε σ β} : (get >>= f) s = f s s := rfl

theorem assert_eq_ok {p : σ → Prop} [DecidablePred p] {u : Unit}
    (h : (assert p e : Code ε σ Unit) s = .ok (u, t)) : p s ∧ s = t := by
  unfold assert at h
  split at h
  · rename_i hp
    exact ⟨hp, by simpa using h⟩
  · cases h

theorem exists_of_decide {P : α × σ → Prop} [DecidablePred P]
    (h : (m s).toOption.map (fun r => decide (P r)) = some true) :
    ∃ a t, m s = .ok (a, t) ∧ P (a, t) := by
  obtain ⟨⟨a, t⟩, hr, hx⟩ := Option.map_eq_some_iff.mp h
  refine ⟨a, t, ?_, of_decide_eq_true hx⟩
  cases hm : m s with
  | ok r =>
    rw [hm] at hr
    rw [Option.some.inj hr]
  | error e =>
    rw [hm] at hr
    cases hr

end Run

section Wp

variable {m : Code ε σ α} {f : α → Code ε σ β} {s t : σ} {a : α} {E E' : ε → Prop}
  {Q Q' : α → σ → Prop} {P : β → σ → Prop}

theorem Wp.of_ok (h : m s = .ok (a, t)) (hq : Q a t) : Wp m s E Q := by
  rw [Wp, h]
  exact hq

theorem Wp.of_error {e : ε} (h : m s = .error e) (he : E e) : Wp m s E Q := by
  rw [Wp, h]
  exact he

theorem Wp.ok (h : Wp m s E Q) (hm : m s = .ok (a, t)) : Q a t := by
  rwa [Wp, hm] at h

theorem Wp.error {e : ε} (h : Wp m s E Q) (hm : m s = .error e) : E e := by
  rwa [Wp, hm] at h

theorem Wp.pure (h : Q a s) : Wp (Pure.pure a : Code ε σ α) s E Q := h

theorem Wp.mono (h : Wp m s E Q) (hE : ∀ e, E e → E' e) (hQ : ∀ a t, Q a t → Q' a t) :
    Wp m s E' Q' := by
  unfold Wp at *
  split
  · rename_i a t hm
    rw [hm] at h
    exact hQ a t h
  · rename_i e hm
    rw [hm] at h
    exact hE e h

theorem Wp.bind (h : Wp m s E Q) (hf : ∀ a t, Q a t → Wp (f a) t E P) : Wp (m >>= f) s E P := by
  unfold Wp at h
  split at h
  · rename_i a t hm
    rw [Wp, bind_ok hm]
    exact hf a t h
  · rename_i e hm
    exact .of_error (bind_error hm) h

theorem Wp.bind_of (h : m s = .ok (a, t)) (hf : Wp (f a) t E P) : Wp (m >>= f) s E P := by
  rwa [Wp, bind_ok h]

theorem Wp.bind_get {f : σ → Code ε σ β} (h : Wp (f s) s E P) : Wp (get >>= f) s E P := h

theorem Wp.bind_modify {g : σ → σ} {f : Unit → Code ε σ β} (h : Wp (f ()) (g s) E P) :
    Wp (modify g >>= f) s E P := h

theorem Wp.bind_assert {p : σ → Prop} [DecidablePred p] {e : ε} {f : Unit → Code ε σ β}
    (h : p s → Wp (f ()) s E P) (he : ¬ p s → E e) : Wp (assert p e >>= f) s E P := by
  by_cases hp : p s
  · exact .bind_of (assert_true hp) (h hp)
  · exact .of_error (bind_error (assert_false hp)) (he hp)

theorem Wp.self (h : Wp m s E Q) : Wp m s E fun a t => m s = .ok (a, t) ∧ Q a t := by
  unfold Wp at *
  split
  · rename_i a t hm
    rw [hm] at h
    exact ⟨hm, h⟩
  · rename_i e hm
    rwa [hm] at h

/-- The panics of one postcondition with the returns of another. -/
theorem Wp.panics (h : Wp m s E Q) (h' : Wp m s E' Q') : Wp m s E' Q := by
  unfold Wp at *
  split
  · rename_i a t hm
    rwa [hm] at h
  · rename_i e hm
    rwa [hm] at h'

theorem Wp.and (h : Wp m s E Q) (h' : Wp m s E' Q') : Wp m s E fun a t => Q a t ∧ Q' a t := by
  unfold Wp at *
  split
  · rename_i a t hm
    rw [hm] at h h'
    exact ⟨h, h'⟩
  · rename_i e hm
    rwa [hm] at h

theorem Wp.assert {p : σ → Prop} [DecidablePred p] {e : ε} {Q : Unit → σ → Prop} (h : p s → Q () s)
    (he : ¬ p s → E e) : Wp (assert p e) s E Q := by
  by_cases hp : p s
  · exact .of_ok (assert_true hp) (h hp)
  · exact .of_error (assert_false hp) (he hp)

theorem Wp.returns (h : Wp m s (fun _ => False) Q) : ∃ a t, m s = .ok (a, t) ∧ Q a t := by
  unfold Wp at h
  split at h
  · rename_i a t hm
    exact ⟨a, t, hm, h⟩
  · exact h.elim

end Wp

/-- The returns of the program from states that satisfy `J` satisfy `P`, and `J` still holds. -/
def Preserves (J : σ → Prop) (P : α → Prop) (m : Code ε σ α) : Prop :=
  ∀ s, J s → Wp m s (fun _ => True) fun a t => P a ∧ J t

namespace Preserves

variable {J : σ → Prop} {P P' : α → Prop} {Q : β → Prop} {m m' : Code ε σ α} {f : α → Code ε σ β}
  {a : α} {e : ε}

theorem pure (h : P a) : Preserves J P (Pure.pure a : Code ε σ α) := fun _ hs => Wp.pure ⟨h, hs⟩

theorem panic : Preserves J P (Code.panic e : Code ε σ α) := fun _ _ => Wp.of_error rfl trivial

theorem bind (hm : Preserves J P m) (hf : ∀ a, P a → Preserves J Q (f a)) :
    Preserves J Q (m >>= f) := fun s hs =>
  (hm s hs).bind fun a t h => hf a h.1 t h.2

theorem mono (hm : Preserves J P m) (h : ∀ a, P a → P' a) : Preserves J P' m := fun s hs =>
  (hm s hs).mono (fun _ he => he) fun a _ ha => ⟨h a ha.1, ha.2⟩

theorem get_bind {f : σ → Code ε σ β} (hf : ∀ s, J s → Preserves J Q (f s)) :
    Preserves J Q (get >>= f) := fun s hs => Wp.bind_get (hf s hs s hs)

theorem assert {p : σ → Prop} [DecidablePred p] :
    Preserves J (fun _ => True) (Code.assert p e : Code ε σ Unit) := fun _ hs =>
  Wp.assert (fun _ => ⟨trivial, hs⟩) fun _ => trivial

theorem modify {g : σ → σ} (h : ∀ s, J s → J (g s)) :
    Preserves J (fun _ => True) (Code.modify g : Code ε σ Unit) := fun s hs => ⟨trivial, h s hs⟩

theorem ite {c : Prop} [Decidable c] (h : c → Preserves J P m) (h' : ¬ c → Preserves J P m') :
    Preserves J P (if c then m else m') := by
  split
  · rename_i hc
    exact h hc
  · rename_i hc
    exact h' hc

end Preserves

section Loop

/-- Repeat the step until it leaves the loop; a panic when the fuel is spent. -/
def loop (e : ε) (step : α → Code ε σ (α ⊕ β)) : ℕ → α → Code ε σ β
  | 0, _ => panic e
  | n + 1, a => do
    match ← step a with
    | .inl a => loop e step n a
    | .inr b => return b

/-- One repetition: the invariant holds again with a smaller measure, or the loop is left. -/
def Turn (I : α → σ → Prop) (μ : α → ℕ) (Q : β → σ → Prop) (n : ℕ) : α ⊕ β → σ → Prop
  | .inl a, t => I a t ∧ μ a < n
  | .inr b, t => Q b t

theorem Wp.loop {e : ε} {step : α → Code ε σ (α ⊕ β)} {E : ε → Prop} {Q : β → σ → Prop}
    (I : α → σ → Prop) (μ : α → ℕ)
    (hstep : ∀ a s, I a s → Wp (step a) s E (Turn I μ Q (μ a))) {n : ℕ} {a : α} {s : σ}
    (h : I a s) (hn : μ a < n) : Wp (Code.loop e step n a) s E Q := by
  induction n generalizing a s with
  | zero => omega
  | succ n ih =>
    unfold Code.loop
    refine (hstep a s h).bind fun r t hr => ?_
    cases r with
    | inl a' => exact ih hr.1 (by have := hr.2; omega)
    | inr b => exact .pure hr

end Loop

end Code

end Library
