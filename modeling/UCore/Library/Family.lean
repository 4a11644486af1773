import Mathlib.Data.Finset.Insert
import Mathlib.Data.Finset.Erase
import Mathlib.Data.List.Nodup
import Mathlib.Logic.Function.Basic

/-! # Trees with sibling pointers

Every node has a pointer to its parent, to its youngest child, and to its next older and next
younger sibling. A new child comes to the front, a child without children can be removed, and the
children of one node can be handed to another one after the other.
-/

namespace Library

structure Family (α : Type*) where
  parent : α → Option α
  cptr : α → Option α
  optr : α → Option α
  yptr : α → Option α

namespace Family

variable {α : Type*} {F F' : Family α} {b first : Option α} {x y : α} {xs ys : List α}

/-- The siblings from `first` on, after the sibling `b`. -/
def Sibs (F : Family α) : Option α → Option α → List α → Prop
  | _, first, [] => first = none
  | b, first, x :: xs => first = some x ∧ F.yptr x = b ∧ F.Sibs (some x) (F.optr x) xs

namespace Sibs

theorem first_eq (h : F.Sibs b first xs) : first = xs.head? := by
  cases xs with
  | nil => exact h
  | cons x xs => exact h.1

theorem congr (h : F.Sibs b first xs) (ho : ∀ y ∈ xs, F'.optr y = F.optr y)
    (hy : ∀ y ∈ xs, F'.yptr y = F.yptr y) : F'.Sibs b first xs := by
  induction xs generalizing b first with
  | nil => exact h
  | cons x xs ih =>
    obtain ⟨hf, hx, hs⟩ := h
    refine ⟨hf, (hy x (by simp)).trans hx, ?_⟩
    rw [ho x (by simp)]
    exact ih hs (fun y hm => ho y (by simp [hm])) fun y hm => hy y (by simp [hm])

theorem yptr_eq (h : F.Sibs b first (xs ++ x :: ys)) : F.yptr x = xs.getLast?.or b := by
  induction xs generalizing b first with
  | nil => exact h.2.1
  | cons w ws ih =>
    rw [ih h.2.2]
    cases ws with
    | nil => rfl
    | cons v vs => simp [List.getLast?_eq_some_getLast]

theorem optr_eq (h : F.Sibs b first (xs ++ x :: ys)) : F.optr x = ys.head? := by
  induction xs generalizing b first with
  | nil => exact h.2.2.first_eq
  | cons w ws ih => exact ih h.2.2

variable [DecidableEq α]

theorem push (h : F.Sibs b first xs) (hnd : xs.Nodup) (ho : F'.optr x = first)
    (hy : F'.yptr x = none) (hos : ∀ y ∈ xs, F'.optr y = F.optr y)
    (hys : ∀ y ∈ xs, F'.yptr y = if first = some y then some x else F.yptr y) :
    F'.Sibs none (some x) (x :: xs) := by
  refine ⟨rfl, hy, ?_⟩
  rw [ho]
  cases xs with
  | nil => exact h
  | cons y ys =>
    obtain ⟨rfl, -, hs⟩ := h
    refine ⟨rfl, by simpa using hys y (by simp), ?_⟩
    rw [hos y (by simp)]
    refine hs.congr (fun z hz => hos z (by simp [hz])) fun z hz => ?_
    have hne : y ≠ z := by
      rintro rfl
      exact (List.nodup_cons.mp hnd).1 hz
    simpa [hne] using hys z (by simp [hz])

/-- A sibling is taken out. -/
theorem remove (h : F.Sibs b first (xs ++ x :: ys)) (hnd : (xs ++ x :: ys).Nodup)
    (ho : ∀ y ∈ xs ++ ys, F'.optr y = if F.yptr x = some y then F.optr x else F.optr y)
    (hy : ∀ y ∈ xs ++ ys, F'.yptr y = if F.optr x = some y then F.yptr x else F.yptr y)
    (hb : ∀ y ∈ xs ++ ys, b ≠ some y) :
    F'.Sibs b (if xs = [] then F.optr x else first) (xs ++ ys) := by
  induction xs generalizing b first with
  | nil =>
    obtain ⟨-, hyx, hs⟩ := h
    simp only [List.nil_append] at ho hy hb ⊢
    cases ys with
    | nil => exact hs
    | cons z zs =>
      obtain ⟨hz, hyz, hs⟩ := hs
      have hno : ∀ y ∈ z :: zs, F'.optr y = F.optr y := by
        intro y hm
        rw [ho y hm, hyx, if_neg (hb y hm)]
      refine ⟨by simpa using hz, ?_, ?_⟩
      · rw [hy z (by simp), if_pos hz, hyx]
      · rw [hno z (by simp)]
        refine hs.congr (fun y hm => hno y (by simp [hm])) fun y hm => ?_
        have hne : z ≠ y := by
          rintro rfl
          simp only [List.nil_append, List.nodup_cons] at hnd
          exact hnd.2.1 hm
        rw [hy y (by simp [hm]), hz, if_neg (by simpa using hne)]
  | cons w ws ih =>
    obtain ⟨hw, hyw, hs⟩ := h
    rw [List.cons_append, List.nodup_cons] at hnd
    have hyx := hs.yptr_eq
    have hox := hs.optr_eq
    have hwy : ∀ y ∈ ws ++ ys, w ≠ y := by
      rintro y hm rfl
      refine hnd.1 ?_
      rcases List.mem_append.mp hm with hm | hm <;> simp [hm]
    have hrest := ih hs hnd.2 (fun y hm => ho y (by simpa using Or.inr (by simpa using hm)))
      (fun y hm => hy y (by simpa using Or.inr (by simpa using hm)))
      (fun y hm => by simpa using hwy y hm)
    refine ⟨by simpa using hw, ?_, ?_⟩
    · have hne : F.optr x ≠ some w := by
        rw [hox]
        intro he
        exact hwy w (List.mem_append_right _ (List.mem_of_mem_head? he)) rfl
      rw [hy w (by simp), if_neg hne, hyw]
    · have hopt : F'.optr w = if ws = [] then F.optr x else F.optr w := by
        rw [ho w (by simp), hyx]
        cases ws with
        | nil => simp
        | cons v vs =>
          have hlast : (v :: vs).getLast?.or (some w) ≠ some w := by
            intro he
            rw [List.getLast?_eq_some_getLast (by simp), Option.some_or, Option.some.injEq] at he
            exact hwy w (he ▸ List.mem_append_left _ (List.getLast_mem (by simp))) rfl
          rw [if_neg hlast, if_neg (by simp)]
      rw [hopt]
      exact hrest

end Sibs

/-- A tree over `nodes` and the root; `bef a` is what the first child of `a` has for its younger
sibling. -/
structure Wf (F : Family α) (root : α) (nodes : Finset α) (bef : α → Option α)
    (kids : α → List α) : Prop where
  notRoot : root ∉ nodes
  parent : ∀ x ∈ nodes, ∃ a, (a = root ∨ a ∈ nodes) ∧ F.parent x = some a
  sibs : ∀ a, a = root ∨ a ∈ nodes → F.Sibs (bef a) (F.cptr a) (kids a)
  mem : ∀ a, a = root ∨ a ∈ nodes → ∀ x, x ∈ kids a ↔ x ∈ nodes ∧ F.parent x = some a
  nodup : ∀ a, a = root ∨ a ∈ nodes → (kids a).Nodup

section Kids

variable {root a p : α} {nodes : Finset α} {bef : α → Option α} {kids : α → List α}

theorem Wf.congr (h : F.Wf root nodes bef kids)
    (hF : ∀ a, a = root ∨ a ∈ nodes → F'.parent a = F.parent a ∧ F'.cptr a = F.cptr a ∧
      F'.optr a = F.optr a ∧ F'.yptr a = F.yptr a) : F'.Wf root nodes bef kids where
  notRoot := h.notRoot
  parent x hx := by
    obtain ⟨a, ha, hxa⟩ := h.parent x hx
    exact ⟨a, ha, (hF x (.inr hx)).1.trans hxa⟩
  sibs a ha := by
    rw [(hF a ha).2.1]
    have hk : ∀ y ∈ kids a, y = root ∨ y ∈ nodes := fun y hy => .inr ((h.mem a ha y).mp hy).1
    exact (h.sibs a ha).congr (fun y hy => (hF y (hk y hy)).2.2.1)
      fun y hy => (hF y (hk y hy)).2.2.2
  mem a ha x := by
    rw [h.mem a ha]
    constructor
    · rintro ⟨hx, hxa⟩
      exact ⟨hx, (hF x (.inr hx)).1.trans hxa⟩
    · rintro ⟨hx, hxa⟩
      exact ⟨hx, (hF x (.inr hx)).1.symm.trans hxa⟩
  nodup := h.nodup

theorem Wf.notMem_kids (h : F.Wf root nodes bef kids) (ha : a = root ∨ a ∈ nodes)
    (hp : p = root ∨ p ∈ nodes) (hne : a ≠ p) (hx : x ∈ kids p) : x ∉ kids a := by
  intro hm
  have h₁ := ((h.mem p hp x).mp hx).2
  have h₂ := ((h.mem a ha x).mp hm).2
  rw [h₁, Option.some.injEq] at h₂
  exact hne h₂.symm

theorem Wf.cptr_ne (h : F.Wf root nodes bef kids) (ha : a = root ∨ a ∈ nodes)
    (hp : p = root ∨ p ∈ nodes) (hne : a ≠ p) (hx : x ∈ kids a) : F.cptr p ≠ some x := by
  intro he
  rw [(h.sibs p hp).first_eq] at he
  exact h.notMem_kids ha hp hne (List.mem_of_mem_head? he) hx

theorem Wf.optr_iff_yptr (h : F.Wf root nodes (fun _ => none) kids) (hx : x ∈ nodes)
    (hy : y ∈ nodes) : F.optr x = some y ↔ F.yptr y = some x := by
  constructor
  · intro ho
    obtain ⟨p, hp, hpar⟩ := h.parent x hx
    obtain ⟨xs, ys, hk⟩ := List.append_of_mem ((h.mem p hp x).mpr ⟨hx, hpar⟩)
    have hs := h.sibs p hp
    rw [hk] at hs
    obtain ⟨zs, rfl⟩ : ∃ zs, ys = y :: zs := by
      rw [hs.optr_eq] at ho
      exact List.head?_eq_some_iff.mp ho
    have hs' : F.Sibs none (F.cptr p) ((xs ++ [x]) ++ y :: zs) := by simpa using hs
    rw [hs'.yptr_eq]
    simp
  · intro ho
    obtain ⟨p, hp, hpar⟩ := h.parent y hy
    obtain ⟨xs, ys, hk⟩ := List.append_of_mem ((h.mem p hp y).mpr ⟨hy, hpar⟩)
    have hs := h.sibs p hp
    rw [hk] at hs
    obtain ⟨ws, rfl⟩ : ∃ ws, xs = ws ++ [x] := by
      rw [hs.yptr_eq, Option.or_none] at ho
      exact List.getLast?_eq_some_iff.mp ho
    have hs' : F.Sibs none (F.cptr p) (ws ++ x :: y :: ys) := by simpa using hs
    rw [hs'.optr_eq]
    rfl

end Kids

variable [DecidableEq α]

omit [DecidableEq α] in
theorem erase_middle [BEq α] [LawfulBEq α] (hnd : (xs ++ x :: ys).Nodup) :
    (xs ++ x :: ys).erase x = xs ++ ys := by
  rw [List.erase_append_right _ fun hm => ?_, List.erase_cons_head]
  exact (List.disjoint_of_nodup_append hnd) hm (by simp)

/-- A store through a pointer that may be null. -/
def storeAt (f : α → Option α) (o v : Option α) : α → Option α :=
  match o with
  | none => f
  | some a => Function.update f a v

/-- A new youngest child of `p`. -/
def addChild (F : Family α) (x p : α) : Family α :=
  { F with
    cptr := Function.update F.cptr p (some x)
    optr := Function.update F.optr x (F.cptr p)
    yptr := storeAt (Function.update F.yptr x none) (F.cptr p) (some x) }

/-- The siblings of `x` skip it. -/
def removeChild (F : Family α) (x : α) : Family α :=
  { F with
    cptr := if F.yptr x = none then storeAt F.cptr (F.parent x) (F.optr x) else F.cptr
    optr := storeAt F.optr (F.yptr x) (F.optr x)
    yptr := storeAt F.yptr (F.optr x) (F.yptr x) }

/-- The youngest child of `p` becomes a child of `q`. -/
def adopt (F : Family α) (x p q : α) : Family α where
  parent := Function.update F.parent x (some q)
  cptr := Function.update (Function.update F.cptr p (F.optr x)) q (some x)
  optr := Function.update F.optr x (F.cptr q)
  yptr := storeAt (Function.update F.yptr x none) (F.cptr q) (some x)

section Ops

variable {root a p q z : α} {nodes : Finset α} {bef : α → Option α} {kids : α → List α}
  {f : α → Option α} {o v : Option α}

theorem storeAt_apply : storeAt f o v z = if o = some z then v else f z := by
  cases o with
  | none => simp [storeAt]
  | some a =>
    simp only [storeAt, Function.update_apply, Option.some.injEq]
    split
    · rename_i h
      rw [if_pos h.symm]
    · rename_i h
      rw [if_neg (Ne.symm h)]

theorem Wf.addChild (h : F.Wf root nodes (fun _ => none) kids) (hp : p = root ∨ p ∈ nodes)
    (hx : x ∉ nodes) (hr : x ≠ root) (hpar : F.parent x = some p) (hc : F.cptr x = none) :
    (F.addChild x p).Wf root (insert x nodes) (fun _ => none)
      (Function.update (Function.update kids p (x :: kids p)) x []) := by
  have hxp : x ≠ p := by
    rintro rfl
    rcases hp with hp | hp
    · exact hr hp
    · exact hx hp
  have hnot : ∀ a, a = root ∨ a ∈ nodes → x ∉ kids a := fun a ha hm =>
    hx ((h.mem a ha x).mp hm).1
  have hold : ∀ a, a = root ∨ a ∈ insert x nodes → a ≠ x → a = root ∨ a ∈ nodes := by
    rintro a (ha | ha) hne
    · exact .inl ha
    · exact .inr ((Finset.mem_insert.mp ha).resolve_left hne)
  have hyo : ∀ y, y ≠ x → (F.addChild x p).optr y = F.optr y ∧
      (F.addChild x p).yptr y = if F.cptr p = some y then some x else F.yptr y := by
    intro y hy
    simp [Family.addChild, storeAt_apply, hy]
  have hxy : (F.addChild x p).optr x = F.cptr p ∧ (F.addChild x p).yptr x = none := by
    have hne : F.cptr p ≠ some x := by
      intro he
      rw [(h.sibs p hp).first_eq] at he
      exact hnot p hp (List.mem_of_mem_head? he)
    simp [Family.addChild, storeAt_apply, hne]
  refine ⟨?_, ?_, ?_, ?_, ?_⟩
  · rw [Finset.mem_insert, not_or]
    exact ⟨Ne.symm hr, h.notRoot⟩
  · intro y hy
    rcases Finset.mem_insert.mp hy with rfl | hy
    · refine ⟨p, ?_, hpar⟩
      rcases hp with hp | hp
      · exact .inl hp
      · exact .inr (Finset.mem_insert_of_mem hp)
    · obtain ⟨a, ha, hya⟩ := h.parent y hy
      refine ⟨a, ?_, hya⟩
      rcases ha with ha | ha
      · exact .inl ha
      · exact .inr (Finset.mem_insert_of_mem ha)
  · intro a ha
    rcases eq_or_ne a x with rfl | hax
    · have hcp : (F.addChild a p).cptr a = none := by
        simp [Family.addChild, hxp, hc]
      rw [hcp, Function.update_self]
      rfl
    · have ha' := hold a ha hax
      rw [Function.update_of_ne hax]
      rcases eq_or_ne a p with rfl | hap
      · have hcp : (F.addChild x a).cptr a = some x := by simp [Family.addChild]
        rw [hcp, Function.update_self]
        have hne : ∀ y ∈ kids a, y ≠ x := by
          rintro y hy rfl
          exact hnot a ha' hy
        exact (h.sibs a ha').push (h.nodup a ha') hxy.1 hxy.2 (fun y hy => (hyo y (hne y hy)).1)
          fun y hy => (hyo y (hne y hy)).2
      · have hcp : (F.addChild x p).cptr a = F.cptr a := by simp [Family.addChild, hap]
        rw [hcp, Function.update_of_ne hap]
        have hne : ∀ y ∈ kids a, y ≠ x := by
          rintro y hy rfl
          exact hnot a ha' hy
        refine (h.sibs a ha').congr (fun y hy => (hyo y (hne y hy)).1) fun y hy => ?_
        rw [(hyo y (hne y hy)).2, if_neg (h.cptr_ne ha' hp hap hy)]
  · intro a ha y
    rcases eq_or_ne a x with rfl | hax
    · rw [Function.update_self]
      simp only [List.not_mem_nil, false_iff, not_and]
      intro hy hya
      have hya' : F.parent y = some a := hya
      rcases Finset.mem_insert.mp hy with rfl | hy
      · rw [hpar, Option.some.injEq] at hya'
        exact hxp hya'.symm
      · obtain ⟨b, hb, hyb⟩ := h.parent y hy
        rw [hya', Option.some.injEq] at hyb
        rw [← hyb] at hb
        rcases hb with hb | hb
        · exact hr hb
        · exact hx hb
    · have ha' := hold a ha hax
      rw [Function.update_of_ne hax]
      rcases eq_or_ne a p with rfl | hap
      · rw [Function.update_self, List.mem_cons, h.mem a ha', Finset.mem_insert]
        constructor
        · rintro (rfl | ⟨hy, hya⟩)
          · exact ⟨.inl rfl, hpar⟩
          · exact ⟨.inr hy, hya⟩
        · rintro ⟨rfl | hy, hya⟩
          · exact .inl rfl
          · exact .inr ⟨hy, hya⟩
      · rw [Function.update_of_ne hap, h.mem a ha', Finset.mem_insert]
        constructor
        · rintro ⟨hy, hya⟩
          exact ⟨.inr hy, hya⟩
        · rintro ⟨rfl | hy, hya⟩
          · have hya' : F.parent y = some a := hya
            rw [hpar, Option.some.injEq] at hya'
            exact absurd hya'.symm hap
          · exact ⟨hy, hya⟩
  · intro a ha
    rcases eq_or_ne a x with rfl | hax
    · simp
    · have ha' := hold a ha hax
      rw [Function.update_of_ne hax]
      rcases eq_or_ne a p with rfl | hap
      · rw [Function.update_self, List.nodup_cons]
        exact ⟨hnot a ha', h.nodup a ha'⟩
      · rw [Function.update_of_ne hap]
        exact h.nodup a ha'

theorem Wf.removeChild (h : F.Wf root nodes (fun _ => none) kids) (hx : x ∈ nodes)
    (hpar : F.parent x = some p) (hkids : kids x = []) :
    (F.removeChild x).Wf root (nodes.erase x) (fun _ => none)
      (Function.update kids p ((kids p).erase x)) := by
  obtain ⟨p', hp, hp'⟩ := h.parent x hx
  obtain rfl : p = p' := by simpa [hpar] using hp'
  have hmem : x ∈ kids p := (h.mem p hp x).mpr ⟨hx, hpar⟩
  have hxp : p ≠ x := by
    rintro rfl
    rw [hkids] at hmem
    simp at hmem
  obtain ⟨xs, ys, hk⟩ := List.append_of_mem hmem
  have hs := h.sibs p hp
  have hnd := h.nodup p hp
  rw [hk] at hs hnd
  have hyx := hs.yptr_eq
  have hox := hs.optr_eq
  have herase : (kids p).erase x = xs ++ ys := by rw [hk, erase_middle hnd]
  have hold : ∀ a, a = root ∨ a ∈ nodes.erase x → a = root ∨ a ∈ nodes := by
    rintro a (ha | ha)
    · exact .inl ha
    · exact .inr (Finset.mem_of_mem_erase ha)
  have hcptr : ∀ a, (F.removeChild x).cptr a =
      if a = p ∧ xs = [] then F.optr x else F.cptr a := by
    intro a
    have hnone : F.yptr x = none ↔ xs = [] := by
      rw [hyx]
      cases xs <;> simp [List.getLast?_eq_some_getLast]
    simp only [Family.removeChild, hpar, hnone]
    by_cases hxs : xs = []
    · rw [if_pos hxs, storeAt_apply]
      by_cases hap : a = p
      · rw [if_pos (by rw [hap]), if_pos ⟨hap, hxs⟩]
      · rw [if_neg (by simpa using Ne.symm hap), if_neg fun hc => hap hc.1]
    · rw [if_neg hxs, if_neg fun hc => hxs hc.2]
  have hout : ∀ a, a = root ∨ a ∈ nodes → a ≠ p → ∀ y ∈ kids a,
      (F.removeChild x).optr y = F.optr y ∧ (F.removeChild x).yptr y = F.yptr y := by
    intro a ha hap y hy
    have hno : ∀ z ∈ kids p, z ≠ y := by
      rintro z hz rfl
      exact h.notMem_kids ha hp hap hz hy
    have h₁ : F.yptr x ≠ some y := by
      rw [hyx]
      intro he
      rw [Option.or_none] at he
      exact hno y (by rw [hk]; exact List.mem_append_left _ (List.mem_of_getLast? he)) rfl
    have h₂ : F.optr x ≠ some y := by
      rw [hox]
      intro he
      refine hno y ?_ rfl
      rw [hk]
      exact List.mem_append_right _ (List.mem_cons_of_mem _ (List.mem_of_mem_head? he))
    simp [Family.removeChild, storeAt_apply, h₁, h₂]
  refine ⟨fun hm => h.notRoot (Finset.mem_of_mem_erase hm), ?_, ?_, ?_, ?_⟩
  · intro y hy
    obtain ⟨a, ha, hya⟩ := h.parent y (Finset.mem_of_mem_erase hy)
    refine ⟨a, ?_, hya⟩
    rcases ha with ha | ha
    · exact .inl ha
    · refine .inr (Finset.mem_erase.mpr ⟨?_, ha⟩)
      rintro rfl
      have := (h.mem a (.inr ha) y).mpr ⟨Finset.mem_of_mem_erase hy, hya⟩
      rw [hkids] at this
      simp at this
  · intro a ha
    have ha' := hold a ha
    rcases eq_or_ne a p with rfl | hap
    · rw [Function.update_self, herase, hcptr]
      have hptr : ∀ y, (F.removeChild x).optr y =
          (if F.yptr x = some y then F.optr x else F.optr y) ∧ (F.removeChild x).yptr y =
          if F.optr x = some y then F.yptr x else F.yptr y := fun y => by
        simp [Family.removeChild, storeAt_apply]
      have hr := hs.remove hnd (fun y _ => (hptr y).1) (fun y _ => (hptr y).2) (by simp)
      simpa using hr
    · rw [Function.update_of_ne hap, hcptr, if_neg fun hc => hap hc.1]
      exact (h.sibs a ha').congr (fun y hy => (hout a ha' hap y hy).1)
        fun y hy => (hout a ha' hap y hy).2
  · intro a ha y
    have ha' := hold a ha
    rcases eq_or_ne a p with rfl | hap
    · rw [Function.update_self, (h.nodup a ha').mem_erase_iff, h.mem a ha', Finset.mem_erase]
      exact and_assoc.symm
    · rw [Function.update_of_ne hap, h.mem a ha', Finset.mem_erase]
      constructor
      · rintro ⟨hy, hya⟩
        refine ⟨⟨?_, hy⟩, hya⟩
        rintro rfl
        rw [hpar, Option.some.injEq] at hya
        exact hap hya.symm
      · rintro ⟨⟨-, hy⟩, hya⟩
        exact ⟨hy, hya⟩
  · intro a ha
    have ha' := hold a ha
    rcases eq_or_ne a p with rfl | hap
    · rw [Function.update_self]
      exact (h.nodup a ha').erase x
    · rw [Function.update_of_ne hap]
      exact h.nodup a ha'

theorem Wf.adopt (h : F.Wf root nodes bef kids) (hp : p = root ∨ p ∈ nodes)
    (hq : q = root ∨ q ∈ nodes) (hpq : p ≠ q) (hk : kids p = x :: xs) (hb : bef q = none) :
    (F.adopt x p q).Wf root nodes (Function.update bef p (some x))
      (Function.update (Function.update kids p xs) q (x :: kids q)) := by
  have hx : x ∈ kids p := by simp [hk]
  obtain ⟨hxn, hpar⟩ := (h.mem p hp x).mp hx
  have hsp := h.sibs p hp
  have hndp := h.nodup p hp
  rw [hk] at hsp hndp
  obtain ⟨hcp, -, hrest⟩ := hsp
  have hxs : x ∉ xs := (List.nodup_cons.mp hndp).1
  have hxq : x ∉ kids q := h.notMem_kids hq hp hpq.symm hx
  have hyo : ∀ y, y ≠ x → (F.adopt x p q).optr y = F.optr y ∧
      (F.adopt x p q).yptr y = if F.cptr q = some y then some x else F.yptr y := by
    intro y hy
    simp [Family.adopt, storeAt_apply, hy]
  have hcq : ∀ a, a = root ∨ a ∈ nodes → a ≠ q → ∀ y ∈ kids a, F.cptr q ≠ some y :=
    fun a ha haq y hy => h.cptr_ne ha hq haq hy
  have hxy : (F.adopt x p q).optr x = F.cptr q ∧ (F.adopt x p q).yptr x = none := by
    simp [Family.adopt, storeAt_apply, hcq p hp hpq x hx]
  refine ⟨h.notRoot, ?_, ?_, ?_, ?_⟩
  · intro y hy
    rcases eq_or_ne y x with rfl | hyx
    · exact ⟨q, hq, by simp [Family.adopt]⟩
    · obtain ⟨a, ha, hya⟩ := h.parent y hy
      exact ⟨a, ha, by simpa [Family.adopt, hyx] using hya⟩
  · intro a ha
    rcases eq_or_ne a q with rfl | haq
    · have hc : (F.adopt x p a).cptr a = some x := by simp [Family.adopt]
      rw [hc, Function.update_self, Function.update_of_ne hpq.symm, hb]
      have hne : ∀ y ∈ kids a, y ≠ x := by
        rintro y hy rfl
        exact hxq hy
      exact (h.sibs a ha).push (h.nodup a ha) hxy.1 hxy.2 (fun y hy => (hyo y (hne y hy)).1)
        fun y hy => (hyo y (hne y hy)).2
    · rw [Function.update_of_ne haq]
      rcases eq_or_ne a p with rfl | hap
      · have hc : (F.adopt x a q).cptr a = F.optr x := by simp [Family.adopt, hpq]
        rw [hc, Function.update_self, Function.update_self]
        have hne : ∀ y ∈ xs, y ≠ x := by
          rintro y hy rfl
          exact hxs hy
        refine hrest.congr (fun y hy => (hyo y (hne y hy)).1) fun y hy => ?_
        rw [(hyo y (hne y hy)).2, if_neg (hcq a ha haq y (by simp [hk, hy]))]
      · have hc : (F.adopt x p q).cptr a = F.cptr a := by simp [Family.adopt, haq, hap]
        rw [hc, Function.update_of_ne hap, Function.update_of_ne hap]
        have hne : ∀ y ∈ kids a, y ≠ x := by
          rintro y hy rfl
          exact h.notMem_kids ha hp hap hx hy
        refine (h.sibs a ha).congr (fun y hy => (hyo y (hne y hy)).1) fun y hy => ?_
        rw [(hyo y (hne y hy)).2, if_neg (hcq a ha haq y hy)]
  · intro a ha y
    have hparent : (F.adopt x p q).parent y = if y = x then some q else F.parent y := by
      simp [Family.adopt, Function.update_apply]
    rw [hparent]
    rcases eq_or_ne a q with rfl | haq
    · rw [Function.update_self, List.mem_cons, h.mem a ha]
      by_cases hyx : y = x
      · simp [hyx, hxn]
      · simp [hyx]
    · rw [Function.update_of_ne haq]
      rcases eq_or_ne a p with rfl | hap
      · have hmem := h.mem a ha y
        rw [hk, List.mem_cons] at hmem
        rw [Function.update_self]
        by_cases hyx : y = x
        · rw [if_pos hyx, hyx]
          simp [hxs, Ne.symm haq]
        · rw [if_neg hyx, ← hmem]
          simp [hyx]
      · rw [Function.update_of_ne hap, h.mem a ha]
        by_cases hyx : y = x
        · rw [if_pos hyx, hyx, hpar]
          simp [Ne.symm haq, Ne.symm hap]
        · rw [if_neg hyx]
  · intro a ha
    rcases eq_or_ne a q with rfl | haq
    · rw [Function.update_self, List.nodup_cons]
      exact ⟨hxq, h.nodup a ha⟩
    · rw [Function.update_of_ne haq]
      rcases eq_or_ne a p with rfl | hap
      · rw [Function.update_self]
        exact (List.nodup_cons.mp hndp).2
      · rw [Function.update_of_ne hap]
        exact h.nodup a ha

end Ops

end Family

end Library
