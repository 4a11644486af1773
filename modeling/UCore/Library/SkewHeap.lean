import Mathlib.Data.List.Perm.Basic
import Mathlib.Data.Tree.Basic

/-! # Skew heaps

Merging and erasing on binary trees that are ordered towards the root. Merging
walks down the right spines and swaps the children on its way.
-/

namespace Library.SkewHeap

open BinaryTree

variable {α : Type*}

/-- The values of a tree, the root first. -/
def elems : BinaryTree α → List α
  | .nil => []
  | .node x l r => x :: (elems l ++ elems r)

@[simp] theorem elems_nil : elems (.nil : BinaryTree α) = [] := rfl

@[simp] theorem elems_node (x : α) (l r : BinaryTree α) :
    elems (.node x l r) = x :: (elems l ++ elems r) := rfl

theorem length_elems (t : BinaryTree α) : (elems t).length = t.numNodes := by
  induction t with
  | nil => rfl
  | node x l r hl hr => simp [hl, hr]

/-- The two ways in which a strict order can compare. -/
structure StrictOrder (lt : α → α → Bool) : Prop where
  asymm : ∀ {x y}, lt x y = true → lt y x = false
  trans : ∀ {x y z}, lt z y = false → lt y x = false → lt z x = false

section Merge

variable (lt : α → α → Bool)

def merge : BinaryTree α → BinaryTree α → BinaryTree α
  | .nil, t => t
  | .node x l r, .nil => .node x l r
  | .node x l r, .node y l' r' =>
    if lt x y then .node x (merge r (.node y l' r')) l else .node y (merge (.node x l r) r') l'
termination_by s t => s.numNodes + t.numNodes

@[simp] theorem nil_merge (t : BinaryTree α) : merge lt .nil t = t := by
  unfold merge
  rfl

@[simp] theorem merge_nil (t : BinaryTree α) : merge lt t .nil = t := by
  cases t with
  | nil => exact nil_merge lt _
  | node x l r =>
    unfold merge
    rfl

variable {lt}

theorem merge_of_lt {x y : α} {l r l' r' : BinaryTree α} (h : lt x y = true) :
    merge lt (.node x l r) (.node y l' r') = .node x (merge lt r (.node y l' r')) l := by
  rw [merge, if_pos h]

theorem merge_of_not_lt {x y : α} {l r l' r' : BinaryTree α} (h : lt x y = false) :
    merge lt (.node x l r) (.node y l' r') = .node y (merge lt (.node x l r) r') l' := by
  rw [merge, if_neg (by simp [h])]

theorem elems_merge (lt : α → α → Bool) (s t : BinaryTree α) :
    (elems (merge lt s t)).Perm (elems s ++ elems t) := by
  induction s, t using merge.induct lt with
  | case1 t => simp
  | case2 x l r => simp
  | case3 x l r y l' r' h ih =>
    rw [merge_of_lt h]
    have hp := (ih.append_right (elems l)).cons x
    apply hp.trans
    simp only [elems_node, List.cons_append]
    apply List.Perm.cons
    have hc : (elems r ++ y :: (elems l' ++ elems r') ++ elems l).Perm
        (elems l ++ (elems r ++ y :: (elems l' ++ elems r'))) := List.perm_append_comm
    simpa using hc
  | case4 x l r y l' r' h ih =>
    rw [merge_of_not_lt (by simpa using h)]
    have hp := (ih.append_right (elems l')).cons y
    apply hp.trans
    simp only [elems_node]
    have hc : (x :: (elems l ++ elems r) ++ elems r' ++ elems l').Perm
        (x :: (elems l ++ elems r) ++ (elems l' ++ elems r')) := by
      rw [List.append_assoc]
      exact List.perm_append_comm.append_left _
    exact (hc.cons y).trans List.perm_middle.symm

theorem mem_merge {s t : BinaryTree α} {x : α} :
    x ∈ elems (merge lt s t) ↔ x ∈ elems s ∨ x ∈ elems t := by
  rw [(elems_merge lt s t).mem_iff, List.mem_append]

theorem merge_congr {lt' : α → α → Bool} {s t : BinaryTree α}
    (h : ∀ x ∈ elems s, ∀ y ∈ elems t, lt x y = lt' x y) : merge lt s t = merge lt' s t := by
  induction s, t using merge.induct lt with
  | case1 t => simp
  | case2 x l r => simp
  | case3 x l r y l' r' hlt ih =>
    rw [merge_of_lt hlt, merge_of_lt ((h x (by simp) y (by simp)).symm.trans hlt)]
    rw [ih fun a ha b hb => h a (by simp [ha]) b hb]
  | case4 x l r y l' r' hlt ih =>
    have hlt' : lt x y = false := by simpa using hlt
    rw [merge_of_not_lt hlt', merge_of_not_lt ((h x (by simp) y (by simp)).symm.trans hlt')]
    rw [ih fun a ha b hb => h a ha b (by simp [hb])]

end Merge

section Ordered

variable {lt : α → α → Bool}

/-- No value is less than one above it. -/
def Ordered (lt : α → α → Bool) : BinaryTree α → Prop
  | .nil => True
  | .node x l r => (∀ y ∈ elems l ++ elems r, lt y x = false) ∧ Ordered lt l ∧ Ordered lt r

theorem Ordered.merge (ho : StrictOrder lt) {s t : BinaryTree α} (hs : Ordered lt s)
    (ht : Ordered lt t) : Ordered lt (merge lt s t) := by
  induction s, t using SkewHeap.merge.induct lt with
  | case1 t => simpa using ht
  | case2 x l r => simpa using hs
  | case3 x l r y l' r' h ih =>
    rw [merge_of_lt h]
    obtain ⟨hx, hl, hr⟩ := hs
    refine ⟨?_, ih hr ht, hl⟩
    intro z hz
    rw [List.mem_append, mem_merge, elems_node, List.mem_cons] at hz
    rcases hz with (hz | rfl | hz) | hz
    · exact hx z (by simp [hz])
    · exact ho.asymm h
    · exact ho.trans (ht.1 z hz) (ho.asymm h)
    · exact hx z (by simp [hz])
  | case4 x l r y l' r' h ih =>
    have hyx : lt x y = false := by simpa using h
    rw [merge_of_not_lt hyx]
    obtain ⟨hy, hl', hr'⟩ := ht
    refine ⟨?_, ih hs hr', hl'⟩
    intro z hz
    rw [List.mem_append, mem_merge, elems_node, List.mem_cons] at hz
    rcases hz with ((rfl | hz) | hz) | hz
    · exact hyx
    · exact ho.trans (hs.1 z hz) hyx
    · exact hy z (by simp [hz])
    · exact hy z (by simp [hz])

theorem Ordered.congr {lt' : α → α → Bool} {t : BinaryTree α}
    (h : ∀ x ∈ elems t, ∀ y ∈ elems t, lt x y = lt' x y) (ht : Ordered lt t) : Ordered lt' t := by
  induction t with
  | nil => trivial
  | node x l r hl hr =>
    obtain ⟨hx, ol, orr⟩ := ht
    refine ⟨?_, hl (fun a ha b hb => h a (by simp [ha]) b (by simp [hb])) ol,
      hr (fun a ha b hb => h a (by simp [ha]) b (by simp [hb])) orr⟩
    intro y hy
    rw [← h y (List.mem_cons_of_mem x hy) x (by simp)]
    exact hx y hy

end Ordered

section Erase

variable [DecidableEq α] (lt : α → α → Bool)

/-- The subtree at a value is replaced by its two children, merged. -/
def erase (a : α) : BinaryTree α → BinaryTree α
  | .nil => .nil
  | .node x l r => if x = a then merge lt l r else .node x (erase a l) (erase a r)

variable {lt} {a : α} {t : BinaryTree α}

theorem erase_of_not_mem (h : a ∉ elems t) : erase lt a t = t := by
  induction t with
  | nil => rfl
  | node x l r hl hr =>
    simp only [elems_node, List.mem_cons, List.mem_append, not_or] at h
    rw [erase, if_neg (Ne.symm h.1), hl h.2.1, hr h.2.2]

theorem elems_erase (h : (elems t).Nodup) : (elems (erase lt a t)).Perm ((elems t).erase a) := by
  induction t with
  | nil => exact .refl _
  | node x l r hl hr =>
    rw [elems_node, List.nodup_cons, List.nodup_append] at h
    obtain ⟨-, nl, nr, hd⟩ := h
    rw [erase, elems_node]
    by_cases hx : x = a
    · subst hx
      rw [if_pos rfl, List.erase_cons_head]
      exact elems_merge _ l r
    · rw [if_neg hx, List.erase_cons_tail (by simpa using hx), elems_node]
      apply List.Perm.cons
      by_cases ha : a ∈ elems l
      · have har : a ∉ elems r := fun hm => hd a ha a hm rfl
        rw [erase_of_not_mem har, List.erase_append_left _ ha]
        exact (hl nl).append_right _
      · rw [erase_of_not_mem ha, List.erase_append_right _ ha]
        exact (hr nr).append_left _

theorem mem_erase (h : (elems t).Nodup) {x : α} :
    x ∈ elems (erase lt a t) ↔ x ≠ a ∧ x ∈ elems t := by
  rw [(elems_erase h).mem_iff, h.mem_erase_iff]

theorem nodup_erase (h : (elems t).Nodup) : (elems (erase lt a t)).Nodup :=
  (elems_erase h).nodup_iff.mpr (h.erase a)

theorem Ordered.erase (ho : StrictOrder lt) (hn : (elems t).Nodup) (ht : Ordered lt t) :
    Ordered lt (erase lt a t) := by
  induction t with
  | nil => trivial
  | node x l r hl hr =>
    obtain ⟨hx, ol, orr⟩ := ht
    rw [elems_node, List.nodup_cons, List.nodup_append] at hn
    obtain ⟨-, nl, nr, -⟩ := hn
    rw [SkewHeap.erase]
    split
    · exact ol.merge ho orr
    · refine ⟨?_, hl nl ol, hr nr orr⟩
      intro y hy
      rw [List.mem_append, mem_erase nl, mem_erase nr] at hy
      apply hx
      rw [List.mem_append]
      exact hy.imp And.right And.right

end Erase

end Library.SkewHeap
