import Mathlib.Tactic.Common

/-! # Programs that may block

A program changes a state and returns a value, or it blocks for ever, or it is lost in a failure
that it does not survive. A program whose accesses to resources block unless they are granted runs
to its end exactly when all accesses on its way are granted.
-/

namespace Library

variable {σ ι α β : Type}

inductive Outcome (σ α : Type)
  | done (a : α) (s : σ)
  | stuck
  | lost

/-- The value and the state of a program that ends. -/
def Outcome.toOption : Outcome σ α → Option (α × σ)
  | .done a s => some (a, s)
  | .stuck => none
  | .lost => none

def Program (σ α : Type) : Type := σ → Outcome σ α

namespace Program

def pure (a : α) : Program σ α := fun s => .done a s

def bind (m : Program σ α) (f : α → Program σ β) : Program σ β := fun s =>
  match m s with
  | .done a t => f a t
  | .stuck => .stuck
  | .lost => .lost

instance : Monad (Program σ) where
  pure := pure
  bind := bind

def get : Program σ σ := fun s => .done s s

def modify (f : σ → σ) : Program σ Unit := fun s => .done () (f s)

@[simp] theorem pure_apply (a : α) (s : σ) : (Pure.pure a : Program σ α) s = .done a s := rfl

theorem bind_done {m : Program σ α} {f : α → Program σ β} {s t : σ} {a : α}
    (h : m s = .done a t) : (m >>= f) s = f a t := by
  change Program.bind m f s = _
  rw [Program.bind, h]

theorem bind_stuck {m : Program σ α} {f : α → Program σ β} {s : σ} (h : m s = .stuck) :
    (m >>= f) s = .stuck := by
  change Program.bind m f s = _
  rw [Program.bind, h]

theorem bind_eq_done {m : Program σ α} {f : α → Program σ β} {s u : σ} {b : β}
    (h : (m >>= f) s = .done b u) : ∃ a t, m s = .done a t ∧ f a t = .done b u := by
  change Program.bind m f s = _ at h
  unfold Program.bind at h
  split at h
  · rename_i a t hm
    exact ⟨a, t, hm, h⟩
  · cases h
  · cases h

theorem exists_of_decide {m : Program σ α} {s : σ} {P : α × σ → Prop} [DecidablePred P]
    (h : (m s).toOption.map (fun r => decide (P r)) = some true) :
    ∃ a t, m s = .done a t ∧ P (a, t) := by
  obtain ⟨⟨a, t⟩, hr, hx⟩ := Option.map_eq_some_iff.mp h
  refine ⟨a, t, ?_, of_decide_eq_true hx⟩
  cases hm : m s with
  | done b u =>
    rw [hm] at hr
    cases hr
    rfl
  | stuck =>
    rw [hm] at hr
    cases hr
  | lost =>
    rw [hm] at hr
    cases hr

/-- A program on a part of the state. -/
def part {τ : Type} (get : τ → σ) (set : τ → σ → τ) (m : Program σ α) : Program τ α := fun s =>
  match m (get s) with
  | .done a t => .done a (set s t)
  | .stuck => .stuck
  | .lost => .lost

theorem part_eq_done {τ : Type} {get : τ → σ} {set : τ → σ → τ} {m : Program σ α} {s u : τ} {a : α}
    (h : part get set m s = .done a u) : ∃ t, m (get s) = .done a t ∧ u = set s t := by
  unfold part at h
  split at h
  · rename_i b t hm
    obtain ⟨rfl, rfl⟩ : b = a ∧ set s t = u := by simpa using h
    exact ⟨t, hm, rfl⟩
  · cases h
  · cases h

/-- The state in which the program ends is related to the one in which it starts. -/
def Ensures (r : σ → σ → Prop) (m : Program σ α) : Prop := ∀ s a t, m s = .done a t → r s t

section Ensures

variable {r : σ → σ → Prop} {m : Program σ α} {f : α → Program σ β}

theorem Ensures.pure (hr : ∀ s, r s s) (a : α) : Ensures r (Pure.pure a : Program σ α) := by
  intro s b t h
  obtain ⟨-, rfl⟩ : a = b ∧ s = t := by simpa using h
  exact hr s

theorem Ensures.bind (ht : ∀ s t u, r s t → r t u → r s u) (hm : Ensures r m)
    (hf : ∀ a, Ensures r (f a)) : Ensures r (m >>= f) := by
  intro s b u h
  obtain ⟨a, t, hma, hfa⟩ := bind_eq_done h
  exact ht s t u (hm s a t hma) (hf a t b u hfa)

end Ensures

end Program

/-- Which accesses a state grants, and what a program keeps of it: among this is what it grants. -/
structure Grants (σ ι : Type) where
  granted : σ → ι → Prop
  keeps : σ → σ → Prop
  trans : ∀ s t u, keeps s t → keeps t u → keeps s u
  granted_iff : ∀ s t x, keeps s t → (granted t x ↔ granted s x)

/-- The program makes the accesses `l` from `s` on: it blocks when one is not granted, and otherwise
ends with `Q`. -/
def Grants.Uses (G : Grants σ ι) (m : Program σ α) (s : σ) (l : List ι) (Q : α → σ → Prop) : Prop :=
  (m s = .stuck ∧ ∃ x ∈ l, ¬ G.granted s x) ∨
    ∃ a t, m s = .done a t ∧ (∀ x ∈ l, G.granted s x) ∧ G.keeps s t ∧ Q a t

namespace Grants.Uses

variable {G : Grants σ ι} {m : Program σ α} {f : α → Program σ β} {s : σ} {l l' : List ι}
  {Q Q' : α → σ → Prop} {P : β → σ → Prop}

theorem stuck_iff (h : G.Uses m s l Q) : m s = .stuck ↔ ∃ x ∈ l, ¬ G.granted s x := by
  rcases h with ⟨hs, hx⟩ | ⟨a, t, hd, hall, -, -⟩
  · exact ⟨fun _ => hx, fun _ => hs⟩
  · constructor
    · intro hs
      rw [hs] at hd
      cases hd
    · rintro ⟨x, hx, hn⟩
      exact absurd (hall x hx) hn

theorem mono (h : G.Uses m s l Q) (hQ : ∀ a t, G.keeps s t → Q a t → Q' a t) : G.Uses m s l Q' := by
  rcases h with hs | ⟨a, t, hd, hall, hk, hq⟩
  · exact .inl hs
  · exact .inr ⟨a, t, hd, hall, hk, hQ a t hk hq⟩

theorem of_done {a : α} {t : σ} (h : G.Uses m s l Q) (hd : m s = .done a t) : Q a t := by
  rcases h with ⟨hs, -⟩ | ⟨b, u, hd', -, -, hq⟩
  · rw [hs] at hd
    cases hd
  · rw [hd'] at hd
    cases hd
    exact hq

theorem done {a : α} {t : σ} (hd : m s = .done a t) (hk : G.keeps s t) (hq : Q a t) :
    G.Uses m s [] Q := .inr ⟨a, t, hd, by simp, hk, hq⟩

theorem bind (h : G.Uses m s l Q)
    (hf : ∀ a t, G.keeps s t → Q a t → G.Uses (f a) t l' P) : G.Uses (m >>= f) s (l ++ l') P := by
  rcases h with ⟨hs, x, hx, hn⟩ | ⟨a, t, hd, hall, hk, hq⟩
  · exact .inl ⟨Program.bind_stuck hs, x, List.mem_append_left _ hx, hn⟩
  · rcases hf a t hk hq with ⟨hs, x, hx, hn⟩ | ⟨b, u, hd', hall', hk', hp⟩
    · refine .inl ⟨(Program.bind_done hd).trans hs, x, List.mem_append_right _ hx, ?_⟩
      rwa [← G.granted_iff s t x hk]
    · refine .inr ⟨b, u, (Program.bind_done hd).trans hd', fun x hx => ?_, G.trans s t u hk hk', hp⟩
      rcases List.mem_append.mp hx with hx | hx
      · exact hall x hx
      · exact (G.granted_iff s t x hk).mp (hall' x hx)

theorem bind_cons {x : ι} (h : G.Uses m s [x] Q)
    (hf : ∀ a t, G.keeps s t → Q a t → G.Uses (f a) t l' P) : G.Uses (m >>= f) s (x :: l') P :=
  h.bind hf

theorem bind_nil (h : G.Uses m s [] Q)
    (hf : ∀ a t, G.keeps s t → Q a t → G.Uses (f a) t l' P) : G.Uses (m >>= f) s l' P :=
  h.bind hf

theorem bind_done (h : G.Uses m s l Q)
    (hf : ∀ a t, G.keeps s t → Q a t → G.Uses (f a) t [] P) : G.Uses (m >>= f) s l P := by
  have hb := h.bind hf
  rwa [List.append_nil] at hb

end Grants.Uses

end Library
