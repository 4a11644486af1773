import UCore.Library.Ring

/-! # Kernel lists

The inline functions of `libs/list.h`, as stores into the two pointers of a
list entry. On a ring they insert and delete one entry of its sequence.
-/

namespace UCore

open Library

variable {α : Type*} [DecidableEq α] (L : Links α)

def listInit (elm : α) : Links α := (L.setNext elm elm).setPrev elm elm

/-- `__list_add`: both outer pointers are stored before those of `elm`. -/
def rawListAdd (elm prev next : α) : Links α :=
  (((L.setPrev next elm).setNext prev elm).setNext elm next).setPrev elm prev

/-- `__list_del`. -/
def rawListDel (prev next : α) : Links α := (L.setNext prev next).setPrev next prev

def listNext (listelm : α) : α := L.next listelm

def listPrev (listelm : α) : α := L.prev listelm

def listEmpty (list : α) : Bool := decide (L.next list = list)

def listAddBefore (listelm elm : α) : Links α := rawListAdd L elm (L.prev listelm) listelm

def listAddAfter (listelm elm : α) : Links α := rawListAdd L elm listelm (L.next listelm)

def listAdd (listelm elm : α) : Links α := listAddAfter L listelm elm

def listDel (listelm : α) : Links α := rawListDel L (L.prev listelm) (L.next listelm)

def listDelInit (listelm : α) : Links α := listInit (listDel L listelm) listelm

variable {L} {h x e : α} {xs ys : List α}

theorem rawListAdd_eq_splice {elm prev next : α} (hn : next ≠ elm) :
    rawListAdd L elm prev next = L.splice elm prev next := by
  simp only [rawListAdd, Links.splice, Links.join, Links.setNext, Links.setPrev, Links.mk.injEq,
    and_true]
  exact Function.update_comm hn _ _ _

theorem listEmpty_iff (r : L.Ring h xs) : listEmpty L h = true ↔ xs = [] := by
  simp [listEmpty, r.next_head_eq_iff]

theorem listEmpty_of_mem (r : L.Ring h xs) (hx : x ∈ xs) : listEmpty L x = false := by
  obtain ⟨ys, zs, rfl⟩ := List.append_of_mem hx
  have hn := (listEmpty_iff r.rotate).not.mpr (by simp)
  simpa using hn

theorem listInit_ring : (listInit L h).Ring h [] :=
  ⟨by simp [listInit, Links.setNext_next, Links.setPrev_prev], by simp⟩

theorem listAdd_ring (r : L.Ring h xs) (he : e ∉ h :: xs) :
    (listAdd L h e).Ring h (e :: xs) := by
  rw [listAdd, listAddAfter, rawListAdd_eq_splice]
  · exact r.spliceAfter he
  · rw [r.next_head]
    intro hh
    have := List.head_mem (l := xs ++ [h]) (by simp)
    rw [hh] at this
    simp at this he
    tauto

theorem listAddBefore_ring (r : L.Ring h xs) (he : e ∉ h :: xs) :
    (listAddBefore L h e).Ring h (xs ++ [e]) := by
  rw [listAddBefore, rawListAdd_eq_splice (fun hh => he (by simp [hh]))]
  exact r.spliceBefore he

theorem listAddBefore_ring_mem (r : L.Ring h (xs ++ x :: ys)) (he : e ∉ h :: (xs ++ x :: ys)) :
    (listAddBefore L x e).Ring h (xs ++ e :: x :: ys) := by
  rw [listAddBefore, rawListAdd_eq_splice (fun hh => he (by simp [hh]))]
  exact r.spliceBefore_mem he

theorem listAdd_ring_mem (r : L.Ring h (xs ++ x :: ys)) (he : e ∉ h :: (xs ++ x :: ys)) :
    (listAdd L x e).Ring h (xs ++ x :: e :: ys) := by
  rw [listAdd, listAddAfter, rawListAdd_eq_splice]
  · exact r.spliceAfter_mem he
  · rw [r.next_mem]
    intro hh
    have := List.head_mem (l := ys ++ [h]) (by simp)
    rw [hh] at this
    simp at this he
    tauto

theorem listAdd_ring_getLast (r : L.Ring h (xs ++ ys)) (he : e ∉ h :: (xs ++ ys)) :
    (listAdd L ((h :: xs).getLast (by simp)) e).Ring h (xs ++ e :: ys) := by
  rcases List.eq_nil_or_concat xs with rfl | ⟨zs, z, rfl⟩
  · exact listAdd_ring r he
  · have r' : L.Ring h (zs ++ z :: ys) := by simpa using r
    simpa using listAdd_ring_mem r' (by simpa using he)

theorem listDel_ring (r : L.Ring h (xs ++ x :: ys)) : (listDel L x).Ring h (xs ++ ys) :=
  r.unlink

theorem listInit_congr {y : α} (hy : y ≠ e) :
    (listInit L e).next y = L.next y ∧ (listInit L e).prev y = L.prev y := by
  simp [listInit, Links.setNext_next, Links.setPrev_prev, hy]

theorem listEmpty_listInit : listEmpty (listInit L e) e = true := by
  simp [listEmpty, listInit, Links.setNext_next]

theorem listAddBefore_congr {y : α} (r : L.Ring h xs) (he : e ∉ h :: xs) (hy : y ∉ h :: xs)
    (hye : y ≠ e) :
    (listAddBefore L h e).next y = L.next y ∧ (listAddBefore L h e).prev y = L.prev y := by
  have hp : y ≠ L.prev h := fun h' => hy (h' ▸ r.prev_mem_ring (by simp))
  have hh : y ≠ h := fun h' => hy (by simp [h'])
  rw [listAddBefore, rawListAdd_eq_splice (fun hh => he (by simp [hh]))]
  simp [Links.splice_next, Links.splice_prev, hye, hp, hh]

theorem listDel_congr {y : α} (r : L.Ring h xs) (hx : x ∈ h :: xs) (hy : y ∉ h :: xs) :
    (listDel L x).next y = L.next y ∧ (listDel L x).prev y = L.prev y := by
  have hp : y ≠ L.prev x := fun h' => hy (h' ▸ r.prev_mem_ring hx)
  have hn : y ≠ L.next x := fun h' => hy (h' ▸ r.next_mem_ring hx)
  simp [listDel, rawListDel, Links.setNext_next, Links.setPrev_prev, hp, hn]

theorem listAdd_congr {y : α} (r : L.Ring h xs) (he : e ∉ h :: xs) (hy : y ∉ h :: xs)
    (hye : y ≠ e) :
    (listAdd L h e).next y = L.next y ∧ (listAdd L h e).prev y = L.prev y := by
  have hn : y ≠ L.next h := fun h' => hy (h' ▸ r.next_mem_ring (by simp))
  have hh : y ≠ h := fun h' => hy (by simp [h'])
  have hne : L.next h ≠ e := fun h' => he (h' ▸ r.next_mem_ring (by simp))
  rw [listAdd, listAddAfter, rawListAdd_eq_splice hne]
  simp [Links.splice_next, Links.splice_prev, hye, hn, hh]

theorem listDelInit_ring (r : L.Ring h (xs ++ x :: ys)) :
    (listDelInit L x).Ring h (xs ++ ys) := by
  have hx : x ∉ h :: (xs ++ ys) := by
    have hp : (h :: (xs ++ x :: ys)).Perm (x :: h :: (xs ++ ys)) :=
      (List.perm_middle.cons h).trans (List.Perm.swap x h _)
    exact (List.nodup_cons.mp (hp.nodup_iff.mp r.nodup)).1
  have hne : ∀ y ∈ h :: (xs ++ ys), y ≠ x := fun y hy h' => hx (h' ▸ hy)
  refine (listDel_ring r).congr ?_ ?_
  · intro y hy; exact (listInit_congr (hne y hy)).1
  · intro y hy; exact (listInit_congr (hne y hy)).2

section Families

variable {ι : Type*} {hd : ι → α} {f : ι → List α} {i : ι}

theorem rings_listInit (r : L.Rings hd f) (he : ∀ j, e ∉ hd j :: f j) :
    (listInit L e).Rings hd f := by
  have hne : ∀ j, ∀ y ∈ hd j :: f j, y ≠ e := fun j y hy h' => he j (h' ▸ hy)
  refine ⟨fun j => (r.ring j).congr ?_ ?_, r.disjoint⟩
  · intro y hy; exact (listInit_congr (hne j y hy)).1
  · intro y hy; exact (listInit_congr (hne j y hy)).2

theorem rings_listAddBefore [DecidableEq ι] (r : L.Rings hd f) (he : ∀ j, e ∉ hd j :: f j) :
    (listAddBefore L (hd i) e).Rings hd (Function.update f i (f i ++ [e])) := by
  refine r.update (listAddBefore_ring (r.ring i) (he i)) ?_ ?_
  · intro y hy
    rcases List.mem_append.mp hy with hy | hy
    · exact .inl hy
    · exact .inr (List.mem_singleton.mp hy ▸ he)
  · intro y hy hy'
    exact listAddBefore_congr (r.ring i) (he i) hy (fun h' => hy' (by simp [h']))

theorem rings_listAdd [DecidableEq ι] (r : L.Rings hd f) (he : ∀ j, e ∉ hd j :: f j) :
    (listAdd L (hd i) e).Rings hd (Function.update f i (e :: f i)) := by
  refine r.update (listAdd_ring (r.ring i) (he i)) ?_ ?_
  · intro y hy
    rcases List.mem_cons.mp hy with rfl | hy
    · exact .inr he
    · exact .inl hy
  · intro y hy hy'
    exact listAdd_congr (r.ring i) (he i) hy (fun h' => hy' (by simp [h']))

theorem rings_listDel [DecidableEq ι] (r : L.Rings hd f) (hf : f i = xs ++ x :: ys) :
    (listDel L x).Rings hd (Function.update f i (xs ++ ys)) := by
  have hr := hf ▸ r.ring i
  refine r.update (listDel_ring hr) ?_ ?_
  · intro y hy
    refine .inl ?_
    rw [hf]
    rcases List.mem_append.mp hy with hy | hy <;> simp [hy]
  · intro y hy _
    rw [hf] at hy
    exact listDel_congr hr (x := x) (by simp) hy

theorem rings_listDelInit [DecidableEq ι] (r : L.Rings hd f) (hf : f i = xs ++ x :: ys) :
    (listDelInit L x).Rings hd (Function.update f i (xs ++ ys)) := by
  have hr := hf ▸ r.ring i
  refine r.update (listDelInit_ring hr) ?_ ?_
  · intro y hy
    refine .inl ?_
    rw [hf]
    rcases List.mem_append.mp hy with hy | hy <;> simp [hy]
  · intro y hy _
    rw [hf] at hy
    have hyx : y ≠ x := fun h' => hy (by simp [h'])
    have h₁ := listDel_congr hr (x := x) (by simp) hy
    have h₂ := listInit_congr (L := listDel L x) hyx
    exact ⟨h₂.1.trans h₁.1, h₂.2.trans h₁.2⟩

end Families

end UCore
