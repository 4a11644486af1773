import Mathlib.Data.List.TakeWhile
import Mathlib.Order.Lattice
import Mathlib.Tactic.Common

/-! # Sorted disjoint intervals

A list of elements that stand for half-open intervals, each of which ends before the next one
starts. At most one element covers a point, and an interval that meets none of the list has one
place in it.
-/

namespace Library

variable {α β : Type*} [LinearOrder β] {lo hi : α → β} {l xs ys : List α} {x y : α} {p : β}

/-- The intervals are not empty, and they are in order without an overlap. -/
structure Apart (lo hi : α → β) (l : List α) : Prop where
  proper : ∀ x ∈ l, lo x < hi x
  sorted : l.Pairwise fun x y => hi x ≤ lo y

/-- The intervals from `a` to `b` and of `x` have a point in common. -/
def Meets (lo hi : α → β) (a b : β) (x : α) : Prop := lo x < b ∧ a < hi x

namespace Apart

theorem nil : Apart lo hi [] := ⟨by simp, List.Pairwise.nil⟩

theorem unique (h : Apart lo hi l) (hx : x ∈ l) (hy : y ∈ l) (hpx : lo x ≤ p ∧ p < hi x)
    (hpy : lo y ≤ p ∧ p < hi y) : x = y := by
  obtain ⟨xs, ys, rfl⟩ := List.append_of_mem hx
  obtain ⟨-, hr, hl⟩ := List.pairwise_append.mp h.sorted
  have hr := (List.pairwise_cons.mp hr).1
  rcases List.mem_append.mp hy with hy | hy
  · have := hl y hy x (by simp)
    exact absurd (hpy.2.trans_le (this.trans hpx.1)) (lt_irrefl p)
  · rcases List.mem_cons.mp hy with rfl | hy
    · rfl
    · have := hr y hy
      exact absurd (hpx.2.trans_le (this.trans hpy.1)) (lt_irrefl p)

theorem find?_eq_some {q : α → Bool} (hq : ∀ x, q x = true ↔ lo x ≤ p ∧ p < hi x)
    (h : Apart lo hi l) : l.find? q = some x ↔ x ∈ l ∧ q x = true := by
  constructor
  · intro hf
    exact ⟨List.mem_of_find?_eq_some hf, List.find?_some hf⟩
  · rintro ⟨hx, hc⟩
    cases hf : l.find? q with
    | none => exact absurd hc (List.find?_eq_none.mp hf x hx)
    | some y =>
      have hy := List.find?_some hf
      rw [h.unique (List.mem_of_find?_eq_some hf) hx ((hq y).mp hy) ((hq x).mp hc)]

theorem split (h : Apart lo hi l) (p : β) :
    (∀ y ∈ l.takeWhile (fun y => decide (lo y ≤ p)), lo y ≤ p) ∧
      ∀ y ∈ l.dropWhile (fun y => decide (lo y ≤ p)), p < lo y := by
  constructor
  · intro y hy
    simpa using List.mem_takeWhile_imp hy
  · intro y hy
    have hs := (h.sorted.sublist (List.dropWhile_sublist fun y => decide (lo y ≤ p)))
    cases hd : l.dropWhile fun y => decide (lo y ≤ p) with
    | nil =>
      rw [hd] at hy
      exact absurd hy List.not_mem_nil
    | cons z zs =>
      have hz : p < lo z := by
        have := List.head?_dropWhile_not (fun y => decide (lo y ≤ p)) l
        rw [hd] at this
        simpa using this
      rw [hd] at hs hy
      rcases List.mem_cons.mp hy with rfl | hy
      · exact hz
      · have hlt := h.proper z ((List.dropWhile_sublist _).subset (by rw [hd]; simp))
        exact hz.trans (hlt.trans_le ((List.pairwise_cons.mp hs).1 y hy))

theorem insert (h : Apart lo hi (xs ++ ys)) (hx : lo x < hi x)
    (hm : ∀ y ∈ xs ++ ys, ¬ Meets lo hi (lo x) (hi x) y) (hxs : ∀ y ∈ xs, lo y ≤ lo x)
    (hys : ∀ y ∈ ys, lo x < lo y) : Apart lo hi (xs ++ x :: ys) ∧
      (∀ y ∈ xs, hi y ≤ lo x) ∧ ∀ y ∈ ys, hi x ≤ lo y := by
  have hl : ∀ y ∈ xs, hi y ≤ lo x := by
    intro y hy
    by_contra hlt
    exact hm y (by simp [hy]) ⟨(hxs y hy).trans_lt hx, not_le.mp hlt⟩
  have hr : ∀ y ∈ ys, hi x ≤ lo y := by
    intro y hy
    by_contra hlt
    exact hm y (by simp [hy]) ⟨not_le.mp hlt, (hys y hy).trans (h.proper y (by simp [hy]))⟩
  refine ⟨⟨?_, ?_⟩, hl, hr⟩
  · intro y hy
    rcases List.mem_append.mp hy with hy | hy
    · exact h.proper y (by simp [hy])
    · rcases List.mem_cons.mp hy with rfl | hy
      · exact hx
      · exact h.proper y (by simp [hy])
  · obtain ⟨sx, sy, sxy⟩ := List.pairwise_append.mp h.sorted
    refine List.pairwise_append.mpr ⟨sx, List.pairwise_cons.mpr ⟨hr, sy⟩, ?_⟩
    intro y hy z hz
    rcases List.mem_cons.mp hz with rfl | hz
    · exact hl y hy
    · exact sxy y hy z hz

end Apart

end Library
