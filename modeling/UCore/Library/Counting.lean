import Mathlib.Algebra.BigOperators.Group.Finset.Basic
import Mathlib.Data.Finset.Card
import Mathlib.Logic.Function.Basic

/-! # Counting under a change at one point -/

namespace Library

variable {α β : Type*} [DecidableEq α] {s : Finset α} {f : α → β} {a : α} {b : β}

theorem card_filter_update (P : β → Prop) [DecidablePred P] (ha : a ∈ s) :
    (s.filter fun x => P (Function.update f a b x)).card + (if P (f a) then 1 else 0) =
      (s.filter fun x => P (f x)).card + if P b then 1 else 0 := by
  have hs : s = insert a (s.erase a) := (Finset.insert_erase ha).symm
  have he : ((s.erase a).filter fun x => P (Function.update f a b x)) =
      (s.erase a).filter fun x => P (f x) := by
    apply Finset.filter_congr
    intro x hx
    rw [Function.update_of_ne (Finset.ne_of_mem_erase hx)]
  have hn : ∀ g : α → β, a ∉ (s.erase a).filter fun x => P (g x) := by simp
  rw [hs, Finset.filter_insert, Finset.filter_insert, he, Function.update_self]
  split <;> split <;> simp [Finset.card_insert_of_notMem (hn f)]

theorem sum_update {M : Type*} [AddCommMonoid M] (g : β → M) (ha : a ∈ s) :
    (∑ x ∈ s, g (Function.update f a b x)) + g (f a) = (∑ x ∈ s, g (f x)) + g b := by
  have he : ∑ x ∈ s.erase a, g (Function.update f a b x) = ∑ x ∈ s.erase a, g (f x) := by
    apply Finset.sum_congr rfl
    intro x hx
    rw [Function.update_of_ne (Finset.ne_of_mem_erase hx)]
  rw [← Finset.add_sum_erase s _ ha, ← Finset.add_sum_erase s (fun x => g (f x)) ha, he,
    Function.update_self, add_right_comm, add_comm (g b), add_right_comm]

theorem card_filter_insert (P : β → Prop) [DecidablePred P] (ha : a ∉ s) :
    ((insert a s).filter fun x => P (Function.update f a b x)).card =
      (s.filter fun x => P (f x)).card + if P b then 1 else 0 := by
  have he : (s.filter fun x => P (Function.update f a b x)) = s.filter fun x => P (f x) := by
    apply Finset.filter_congr
    intro x hx
    rw [Function.update_of_ne (ne_of_mem_of_not_mem hx ha)]
  rw [Finset.filter_insert, he, Function.update_self]
  split
  · exact Finset.card_insert_of_notMem fun h => ha (Finset.mem_of_mem_filter a h)
  · rfl

theorem card_filter_erase (P : β → Prop) [DecidablePred P] (ha : a ∈ s) :
    ((s.erase a).filter fun x => P (f x)).card + (if P (f a) then 1 else 0) =
      (s.filter fun x => P (f x)).card := by
  rw [Finset.filter_erase]
  split
  · rename_i h
    exact Finset.card_erase_add_one (Finset.mem_filter.mpr ⟨ha, h⟩)
  · rename_i h
    have hm : a ∉ s.filter fun x => P (f x) := fun hm => h (Finset.mem_filter.mp hm).2
    rw [Finset.erase_eq_of_notMem hm, add_zero]

end Library
