import Mathlib.Data.Nat.Notation
import Mathlib.Logic.Relation

/-! # Runs of labelled transition systems

A run takes one labelled step after another. What every step preserves holds in
every state that a run reaches.
-/

namespace Library

variable {σ ι : Type*} {step : σ → ι → σ → Prop} {P : σ → Prop}

/-- The steps with the labels `l`, taken in this order, lead from one state to another. -/
inductive Runs (step : σ → ι → σ → Prop) : σ → List ι → σ → Prop
  | nil (s : σ) : Runs step s [] s
  | cons {s t u : σ} {i : ι} {l : List ι} : step s i t → Runs step t l u → Runs step s (i :: l) u

namespace Runs

theorem invariant {s t : σ} {l : List ι} (h : Runs step s l t)
    (hs : ∀ s i t, P s → step s i t → P t) (hp : P s) : P t := by
  induction h with
  | nil s => exact hp
  | cons h _ ih => exact ih (hs _ _ _ hp h)

theorem mono {g : σ → ι → σ → Prop} {s t : σ} {l : List ι} (h : Runs step s l t)
    (hs : ∀ s i t, step s i t → g s i t) : Runs g s l t := by
  induction h with
  | nil s => exact .nil s
  | cons h _ ih => exact .cons (hs _ _ _ h) ih

theorem append {s t u : σ} {l l' : List ι} (h : Runs step s l t) (h' : Runs step t l' u) :
    Runs step s (l ++ l') u := by
  induction h with
  | nil s => exact h'
  | cons h _ ih => exact .cons h (ih h')

theorem split {s u : σ} {l l' : List ι} (h : Runs step s (l ++ l') u) :
    ∃ t, Runs step s l t ∧ Runs step t l' u := by
  induction l generalizing s with
  | nil => exact ⟨s, .nil s, h⟩
  | cons i l ih =>
    cases h with
    | cons hi hl =>
      obtain ⟨t, ht, hu⟩ := ih hl
      exact ⟨t, .cons hi ht, hu⟩

theorem iff_foldlM {f : σ → ι → Option σ} {s t : σ} {l : List ι} :
    Runs (fun s i t => f s i = some t) s l t ↔ l.foldlM f s = some t := by
  constructor
  · intro h
    induction h with
    | nil s => rfl
    | cons h _ ih => simp [h, ih]
  · intro h
    induction l generalizing s with
    | nil =>
      obtain rfl : s = t := by simpa using h
      exact .nil s
    | cons i l ih =>
      obtain ⟨u, hu, hl⟩ : ∃ u, f s i = some u ∧ l.foldlM f u = some t := by
        simpa [Option.bind_eq_some_iff] using h
      exact .cons hu (ih hl)

theorem of_guard {P : σ → ι → Prop} [∀ s, DecidablePred (P s)] {f : σ → ι → Option σ} {s t : σ}
    {l : List ι} (h : l.foldlM (fun s i => if P s i then f s i else none) s = some t) :
    Runs (fun s i t => P s i ∧ f s i = some t) s l t := by
  refine (iff_foldlM.mpr h).mono fun s i t hs => ?_
  split at hs
  · exact ⟨‹_›, hs⟩
  · cases hs

/-- A measure that no step raises and the steps of `L` lower is used up after as many steps of
`L`. -/
theorem reaches {Q : σ → Prop} {μ : σ → ℕ} {L : ι → Prop} [DecidablePred L] {s t : σ} {l : List ι}
    (h : Runs step s l t) (hpos : ∀ s, P s → 0 < μ s)
    (hs : ∀ s i t, P s → step s i t → Q t ∨ P t ∧ μ t + (if L i then 1 else 0) ≤ μ s)
    (hp : P s) (hl : μ s ≤ l.countP (L ·)) :
    ∃ l₁ l₂ u, l = l₁ ++ l₂ ∧ Runs step s l₁ u ∧ Runs step u l₂ t ∧ Q u := by
  induction h with
  | nil s =>
    have := hpos s hp
    rw [List.countP_nil] at hl
    omega
  | @cons s t u i l hstep hrun ih =>
    rcases hs s i t hp hstep with hq | ⟨hp', hμ⟩
    · exact ⟨[i], l, t, rfl, .cons hstep (.nil t), hrun, hq⟩
    · have hl' : μ t ≤ l.countP (L ·) := by
        rw [List.countP_cons] at hl
        simp only [decide_eq_true_eq] at hl
        omega
      obtain ⟨l₁, l₂, v, rfl, h₁, h₂, hq⟩ := ih hp' hl'
      exact ⟨i :: l₁, l₂, v, rfl, .cons hstep h₁, h₂, hq⟩

theorem simulate {τ : Type*} {g : τ → ι → τ → Prop} {R : σ → τ → Prop} {s t : σ} {a : τ}
    {l : List ι} (h : Runs step s l t)
    (hs : ∀ s i t a, R s a → step s i t → ∃ b, g a i b ∧ R t b) (hr : R s a) :
    ∃ b, Runs g a l b ∧ R t b := by
  induction h generalizing a with
  | nil s => exact ⟨a, .nil a, hr⟩
  | cons hstep _ ih =>
    obtain ⟨b, hb, hr'⟩ := hs _ _ _ _ hr hstep
    obtain ⟨c, hc, hr''⟩ := ih hr'
    exact ⟨c, .cons hb hc, hr''⟩

end Runs

end Library
