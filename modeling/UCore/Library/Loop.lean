import Mathlib.Tactic.Common
import Mathlib.Data.Nat.Notation

/-! # Loops with fuel

A loop body either goes on with a new state or stops with a result. A measure that every
iteration decreases bounds the fuel, and an invariant gives the result's property.
-/

namespace Library

variable {σ ρ : Type*}

/-- Iterate `f` until it stops; `none` when the fuel runs out. -/
@[irreducible] def iterate (f : σ → σ ⊕ ρ) : ℕ → σ → Option ρ
  | 0, _ => none
  | n + 1, x =>
    match f x with
    | .inl y => iterate f n y
    | .inr r => some r

/-- Total correctness of a loop from an invariant and a decreasing measure. -/
theorem iterate_spec {f : σ → σ ⊕ ρ} (I : σ → Prop) (μ : σ → ℕ) (Q : ρ → Prop)
    (hgo : ∀ x y, I x → f x = .inl y → I y ∧ μ y < μ x)
    (hstop : ∀ x r, I x → f x = .inr r → Q r) {n : ℕ} {x : σ} (hx : I x) (hn : μ x < n) :
    ∃ r, iterate f n x = some r ∧ Q r := by
  induction n generalizing x with
  | zero => omega
  | succ n ih =>
    cases hf : f x with
    | inl y =>
      obtain ⟨hy, hμ⟩ := hgo x y hx hf
      obtain ⟨r, hr, hq⟩ := ih hy (by omega)
      exact ⟨r, by simp [iterate, hf, hr], hq⟩
    | inr r => exact ⟨r, by simp [iterate, hf], hstop x r hx hf⟩

section Ends

variable {f : σ → σ ⊕ ρ} {x y : σ} {r r' : ρ} {n k : ℕ}

/-- The loop stops with a result if it has enough fuel. -/
def Ends (f : σ → σ ⊕ ρ) (x : σ) (r : ρ) : Prop := ∃ n, iterate f n x = some r

theorem iterate_mono (h : iterate f n x = some r) : iterate f (n + k) x = some r := by
  induction n generalizing x with
  | zero => simp [iterate] at h
  | succ n ih =>
    rw [Nat.add_right_comm]
    simp only [iterate] at h ⊢
    cases hf : f x with
    | inl y =>
      rw [hf] at h
      exact ih h
    | inr r' =>
      rw [hf] at h
      exact h

namespace Ends

theorem stop (h : f x = .inr r) : Ends f x r := ⟨1, by simp [iterate, h]⟩

theorem go (h : f x = .inl y) (hy : Ends f y r) : Ends f x r := by
  obtain ⟨n, hn⟩ := hy
  exact ⟨n + 1, by simp [iterate, h, hn]⟩

theorem induction {P : σ → Prop} (h : Ends f x r) (hstop : ∀ x, f x = .inr r → P x)
    (hgo : ∀ x y, f x = .inl y → P y → P x) : P x := by
  obtain ⟨n, hn⟩ := h
  induction n generalizing x with
  | zero => simp [iterate] at hn
  | succ n ih =>
    simp only [iterate] at hn
    cases hf : f x with
    | inl y =>
      rw [hf] at hn
      exact hgo x y hf (ih hn)
    | inr r' =>
      rw [hf] at hn
      obtain rfl := Option.some.inj hn
      exact hstop x hf

theorem unique (h : Ends f x r) (h' : Ends f x r') : r = r' := by
  obtain ⟨n, hn⟩ := h
  obtain ⟨m, hm⟩ := h'
  have e := iterate_mono (k := m) hn
  rw [Nat.add_comm, iterate_mono hm] at e
  exact (Option.some.inj e).symm

/-- A loop that does the same in the states of an invariant ends with the same result. -/
theorem map {ρ' : Type*} {g : σ → σ ⊕ ρ'} {I : σ → Prop} {k : ρ → ρ'} (h : Ends f x r) (hx : I x)
    (hg : ∀ x, I x → g x = Sum.map id k (f x)) (hI : ∀ x y, I x → f x = .inl y → I y) :
    Ends g x (k r) := by
  obtain ⟨n, hn⟩ := h
  induction n generalizing x with
  | zero => simp [iterate] at hn
  | succ n ih =>
    simp only [iterate] at hn
    cases hf : f x with
    | inl y =>
      rw [hf] at hn
      exact .go (by rw [hg x hx, hf]; rfl) (ih (hI x y hx hf) hn)
    | inr r' =>
      rw [hf] at hn
      obtain rfl := Option.some.inj hn
      exact .stop (by rw [hg x hx, hf]; rfl)

end Ends

end Ends

end Library
