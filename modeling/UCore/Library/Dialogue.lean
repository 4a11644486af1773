import Mathlib.Tactic.Common

/-! # Programs that ask

A program makes calls and goes on with their answers. Two programs are equal when they make the same
calls whatever the answers are, and end with the same result.
-/

namespace Library

inductive Dialogue (ε ρ α : Type)
  | done (a : α)
  | call (e : ε) (next : ρ → Dialogue ε ρ α)

namespace Dialogue

variable {ε ρ α β γ : Type}

def bind : Dialogue ε ρ α → (α → Dialogue ε ρ β) → Dialogue ε ρ β
  | done a, f => f a
  | call e next, f => call e fun r => (next r).bind f

instance : Monad (Dialogue ε ρ) where
  pure := done
  bind := bind

/-- A call whose answer is the result. -/
def ask (e : ε) : Dialogue ε ρ ρ := call e done

/-- The calls when the answers are `l`, and the result if it is reached. -/
def follow : List ρ → Dialogue ε ρ α → List ε × Option α
  | _, done a => ([], some a)
  | [], call e _ => ([e], none)
  | r :: l, call e next => (e :: (follow l (next r)).1, (follow l (next r)).2)

variable {e e' : ε} {a : α} {f : α → Dialogue ε ρ β} {g : α → β} {next next' : ρ → Dialogue ε ρ α}
  {m m' : Dialogue ε ρ α}

@[simp] theorem pure_bind : ((pure a : Dialogue ε ρ α) >>= f) = f a := rfl

@[simp] theorem call_bind : (call e next >>= f) = call e fun r => next r >>= f := rfl

@[simp] theorem ask_bind {f : ρ → Dialogue ε ρ β} : (ask e >>= f) = call e f := rfl

@[simp] theorem map_pure : g <$> (pure a : Dialogue ε ρ α) = pure (g a) := rfl

@[simp] theorem map_call : g <$> call e next = call e fun r => g <$> next r := rfl

@[simp] theorem map_bind {g : β → γ} : g <$> (m >>= f) = m >>= fun a => g <$> f a := by
  induction m with
  | done a => rfl
  | call e next ih =>
    rw [call_bind, call_bind, map_call]
    exact congrArg (call e) (funext ih)

theorem map_ite {c : Prop} [Decidable c] : g <$> (if c then m else m') =
    if c then g <$> m else g <$> m' := by
  split <;> rfl

theorem call_inj (h : call e next = call e' next') : e = e' ∧ ∀ r, next r = next' r := by
  injection h with h₁ h₂
  exact ⟨h₁, fun r => congrFun h₂ r⟩

theorem map_injective (hg : Function.Injective g) (h : g <$> m = g <$> m') : m = m' := by
  induction m generalizing m' with
  | done a =>
    cases m' with
    | done a' =>
      have ha : g a = g a' := by injection h
      exact congrArg done (hg ha)
    | call e' next' => cases h
  | call e next ih =>
    cases m' with
    | done a' => cases h
    | call e' next' =>
      obtain ⟨rfl, hr⟩ := call_inj h
      exact congrArg (call e) (funext fun r => ih r (hr r))

end Dialogue

end Library
