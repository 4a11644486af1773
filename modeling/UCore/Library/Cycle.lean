import Mathlib.Data.List.Basic
import Mathlib.Data.List.Nodup
import Mathlib.Logic.Function.Iterate

/-! # Singly linked lists

A list that is threaded through the nodes: `w x` is the node after `x`, and `0` ends the list.
-/

namespace Library

/-- The nodes from `p` on are those of the list. -/
def Chain (w : ℕ → ℕ) : ℕ → List ℕ → Prop
  | p, [] => p = 0
  | p, x :: xs => p = x ∧ x ≠ 0 ∧ Chain w (w x) xs

namespace Chain

variable {w w' : ℕ → ℕ} {p x : ℕ} {xs : List ℕ}

theorem eq_zero_iff (h : Chain w p xs) : p = 0 ↔ xs = [] := by
  cases xs with
  | nil => exact iff_of_true h rfl
  | cons x xs =>
    obtain ⟨rfl, hx, -⟩ := h
    simp [hx]

theorem exists_cons (h : Chain w p xs) (hp : p ≠ 0) : ∃ ys, xs = p :: ys ∧ Chain w (w p) ys := by
  cases xs with
  | nil => exact absurd h hp
  | cons x ys =>
    obtain ⟨rfl, -, hc⟩ := h
    exact ⟨ys, rfl, hc⟩

theorem congr (h : Chain w p xs) (hw : ∀ x ∈ xs, w' x = w x) : Chain w' p xs := by
  induction xs generalizing p with
  | nil => exact h
  | cons x xs ih =>
    obtain ⟨hp, hx, hc⟩ := h
    refine ⟨hp, hx, ?_⟩
    rw [hw x (by simp)]
    exact ih hc fun y hy => hw y (by simp [hy])

theorem store {v : ℕ} (h : Chain w p xs) (hx : x ∉ xs) : Chain (Function.update w x v) p xs := by
  refine h.congr fun y hy => Function.update_of_ne ?_ _ _
  rintro rfl
  exact hx hy

theorem push (h : Chain w p xs) (h₀ : x ≠ 0) (hx : x ∉ xs) :
    Chain (Function.update w x p) x (x :: xs) := by
  refine ⟨rfl, h₀, ?_⟩
  rw [Function.update_self]
  exact h.store hx

theorem unlink {c : ℕ} {ys : List ℕ} (h : Chain w p (xs ++ c :: x :: ys))
    (hn : (xs ++ c :: x :: ys).Nodup) : Chain (Function.update w c (w x)) p (xs ++ c :: ys) := by
  induction xs generalizing p with
  | nil =>
    obtain ⟨hp, hc, rfl, hx, hy⟩ := h
    refine ⟨hp, hc, ?_⟩
    rw [Function.update_self]
    exact hy.store fun hm => (List.nodup_cons.mp hn).1 (List.mem_cons_of_mem _ hm)
  | cons a xs ih =>
    obtain ⟨hp, ha, hc⟩ := h
    obtain ⟨hna, hn⟩ := List.nodup_cons.mp hn
    have hne : a ≠ c := by
      rintro rfl
      exact hna (by simp)
    refine ⟨hp, ha, ?_⟩
    rw [Function.update_of_ne hne]
    exact ih hc hn

end Chain

/-! ## Circular lists

A singly linked list that leads back to its head. A circle has no distinguished
node: it can be read from any of its nodes on.
-/

namespace Cycle

variable {α : Type*} {next next' : α → α} {a a' b c p q x : α} {xs ys bs : List α}

/-- The pointer leads from `a` through the nodes `xs` to `b`. -/
def Path (next : α → α) : α → List α → α → Prop
  | a, [], b => next a = b
  | a, x :: xs, b => next a = x ∧ Path next x xs b

theorem path_append : Path next a (xs ++ x :: ys) b ↔ Path next a xs x ∧ Path next x ys b := by
  induction xs generalizing a with
  | nil => rfl
  | cons y xs ih => simp only [List.cons_append, Path, ih, and_assoc]

namespace Path

theorem rehead (h : Path next a xs b) (ha : next' a' = next a)
    (hx : ∀ x ∈ xs, next' x = next x) : Path next' a' xs b := by
  induction xs generalizing a a' with
  | nil => exact ha.trans h
  | cons y xs ih =>
    refine ⟨ha.trans h.1, ih h.2 (hx y List.mem_cons_self) ?_⟩
    exact fun x hm => hx x (List.mem_cons_of_mem y hm)

theorem map_next (h : Path next a xs b) : (a :: xs).map next = xs ++ [b] := by
  induction xs generalizing a with
  | nil => exact congrArg (fun x => [x]) h
  | cons y xs ih =>
    rw [List.map_cons, ih h.2, h.1]
    rfl

theorem rotate (h : Path next a (xs ++ x :: ys) a) : Path next x (ys ++ a :: xs) x := by
  obtain ⟨h₁, h₂⟩ := path_append.mp h
  exact path_append.mpr ⟨h₂, h₁⟩

theorem reach (h : Path next a xs b) (hc : c ∈ a :: xs) : ∃ k, next^[k] a = c := by
  induction xs generalizing a with
  | nil => exact ⟨0, (List.mem_singleton.mp hc).symm⟩
  | cons y xs ih =>
    rcases List.mem_cons.mp hc with rfl | hc
    · exact ⟨0, rfl⟩
    · obtain ⟨k, hk⟩ := ih h.2 hc
      exact ⟨k + 1, by rw [Function.iterate_succ_apply, h.1, hk]⟩

end Path

/-- The nodes `bs` form a circle. -/
def Circle (next : α → α) : List α → Prop
  | [] => False
  | a :: xs => Path next a xs a

theorem circle_iff : Circle next (xs ++ a :: ys) ↔ Path next a (ys ++ xs) a := by
  cases xs with
  | nil =>
    rw [List.append_nil]
    rfl
  | cons x xs => exact ⟨Path.rotate, Path.rotate⟩

namespace Circle

variable (h : Circle next bs)

include h

theorem split (ha : a ∈ bs) : ∃ xs ys, bs = xs ++ a :: ys ∧ Path next a (ys ++ xs) a := by
  obtain ⟨xs, ys, rfl⟩ := List.append_of_mem ha
  exact ⟨xs, ys, rfl, circle_iff.mp h⟩

theorem next_mem (ha : a ∈ bs) : next a ∈ bs := by
  obtain ⟨xs, ys, rfl, hp⟩ := h.split ha
  have hm : next a ∈ (a :: (ys ++ xs)).map next := List.mem_map_of_mem List.mem_cons_self
  rw [hp.map_next] at hm
  simp only [List.mem_append, List.mem_cons] at hm ⊢
  tauto

theorem reach (ha : a ∈ bs) (hc : c ∈ bs) : ∃ k, next^[k] a = c := by
  obtain ⟨xs, ys, rfl, hp⟩ := h.split ha
  apply hp.reach
  simp only [List.mem_append, List.mem_cons] at hc ⊢
  tauto

end Circle

end Cycle

end Library
