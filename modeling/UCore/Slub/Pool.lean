import Mathlib.Data.List.Perm.Basic
import Mathlib.Data.List.Nodup
import Mathlib.Tactic.Linarith
import UCore.Slub.Model

/-! # Pools of objects

A cache as lists: the objects handed out, those on the list of the processor, and those on the list
of each page. An object is on exactly one of these lists, and a page with free objects of its own is
the current page or a partial one.
-/

namespace UCore.Slub

def objectsOf (size n page : ℕ) : List ℕ :=
  (List.range n).map fun i => pageToVirt page + i * size

structure Pool where
  slabs : List ℕ
  live : List ℕ
  cpu : List ℕ
  free : ℕ → List ℕ
  part : List ℕ
  cur : Option ℕ

namespace Pool

def all (P : Pool) : List ℕ := P.live ++ P.cpu ++ P.slabs.flatMap P.free

/-- The invariant of a cache with `n` objects of `size` bytes in a page. -/
structure Inv (size n : ℕ) (P : Pool) : Prop where
  slabs : P.slabs.Nodup
  all : P.all.Perm (P.slabs.flatMap (objectsOf size n))
  home : ∀ p ∈ P.slabs, ∀ o ∈ P.free p, virtToPage o = p
  part : ∀ p ∈ P.part, p ∈ P.slabs ∧ P.free p ≠ [] ∧ P.cur ≠ some p
  listed : ∀ p ∈ P.slabs, P.free p ≠ [] → P.cur = some p ∨ p ∈ P.part
  cur : ∀ p ∈ P.cur, p ∈ P.slabs

end Pool

section Addresses

variable {size n p q i o : ℕ}

theorem virtToPage_pageToVirt (h : i < pgsize) : virtToPage (pageToVirt p + i) = p := by
  unfold virtToPage pageToVirt at *
  unfold pgsize at *
  omega

theorem mem_objectsOf : o ∈ objectsOf size n p ↔ ∃ i < n, o = pageToVirt p + i * size := by
  simp [objectsOf, eq_comm]

variable (hn : n * size ≤ pgsize) (hs : 0 < size)
include hn hs

omit hs in
theorem offset_lt (hi : i < n) : i * size + size ≤ pgsize := by
  have h : (i + 1) * size ≤ n * size := Nat.mul_le_mul_right size hi
  linarith

theorem virtToPage_of_mem (h : o ∈ objectsOf size n p) : virtToPage o = p := by
  obtain ⟨i, hi, rfl⟩ := mem_objectsOf.mp h
  have := offset_lt hn hi
  exact virtToPage_pageToVirt (by omega)

omit hn in
theorem nodup_objectsOf : (objectsOf size n p).Nodup := by
  refine List.Nodup.map (fun i j h => ?_) List.nodup_range
  have h' : i * size = j * size := by simpa using h
  exact Nat.eq_of_mul_eq_mul_right hs h'

omit hn hs in
theorem ne_zero_of_mem (h : o ∈ objectsOf size n p) : o ≠ 0 := by
  obtain ⟨i, hi, rfl⟩ := mem_objectsOf.mp h
  unfold pageToVirt vaPaOffset
  omega

theorem nodup_flatMap {l : List ℕ} (hl : l.Nodup) : (l.flatMap (objectsOf size n)).Nodup := by
  rw [List.nodup_flatMap]
  refine ⟨fun p _ => nodup_objectsOf hs, hl.imp ?_⟩
  intro p q hpq o hp hq
  exact hpq ((virtToPage_of_mem hn hs hp).symm.trans (virtToPage_of_mem hn hs hq))

theorem disjoint_objects {o' : ℕ} (ho : o ∈ objectsOf size n p) (ho' : o' ∈ objectsOf size n q)
    (hne : o ≠ o') : o + size ≤ o' ∨ o' + size ≤ o := by
  obtain ⟨i, hi, rfl⟩ := mem_objectsOf.mp ho
  obtain ⟨j, hj, rfl⟩ := mem_objectsOf.mp ho'
  have h₁ := offset_lt hn hi
  have h₂ := offset_lt hn hj
  rcases Nat.lt_trichotomy p q with hpq | rfl | hpq
  · left
    unfold pageToVirt pgsize at *
    omega
  · have hij : i ≠ j := fun h => hne (by rw [h])
    rcases Nat.lt_or_gt_of_ne hij with h | h
    · have := Nat.mul_le_mul_right size (Nat.succ_le_of_lt h)
      rw [Nat.succ_mul] at this
      left
      omega
    · have := Nat.mul_le_mul_right size (Nat.succ_le_of_lt h)
      rw [Nat.succ_mul] at this
      right
      omega
  · right
    unfold pageToVirt pgsize at *
    omega

end Addresses

namespace Pool

/-- Objects go from the list of a page to that of the processor. -/
def refill (P : Pool) (p o : ℕ) (l : List ℕ) : Pool :=
  { P with cpu := o :: P.cpu, free := Function.update P.free p l }

/-- An object goes back to its page. -/
def flush (P : Pool) (p o : ℕ) (l : List ℕ) : Pool :=
  { P with
    cpu := l
    free := Function.update P.free p (o :: P.free p)
    part := if P.cur ≠ some p ∧ p ∉ P.part then p :: P.part else P.part }

def take (P : Pool) (o : ℕ) (l : List ℕ) : Pool := { P with cpu := l, live := o :: P.live }

def give (P : Pool) (o : ℕ) : Pool := { P with cpu := o :: P.cpu, live := P.live.erase o }

def grow (P : Pool) (size n p : ℕ) : Pool :=
  { P with
    slabs := p :: P.slabs
    free := Function.update P.free p (objectsOf size n p)
    cur := some p }

/-- A partial page becomes the current one. -/
def switch (P : Pool) (p : ℕ) : Pool := { P with cur := some p, part := P.part.erase p }

/-- The current page is given up. -/
def retire (P : Pool) : Pool := { P with cur := none }

namespace Inv

variable {size n p o : ℕ} {P : Pool} {l : List ℕ}

theorem flatMap_update {f : ℕ → List ℕ} {slabs : List ℕ} (hs : slabs.Nodup) (hp : p ∈ slabs) :
    (slabs.flatMap (Function.update f p l)).Perm (l ++ (slabs.erase p).flatMap f) := by
  have h₁ := (List.perm_cons_erase hp).flatMap_right (Function.update f p l)
  rw [List.flatMap_cons, Function.update_self] at h₁
  refine h₁.trans (.of_eq ?_)
  congr 1
  refine List.flatMap_congr fun q hq => Function.update_of_ne ?_ _ _
  rintro rfl
  exact hs.not_mem_erase hq

theorem flatMap_split {f : ℕ → List ℕ} {slabs : List ℕ} (hp : p ∈ slabs) :
    (slabs.flatMap f).Perm (f p ++ (slabs.erase p).flatMap f) := by
  have h₁ := (List.perm_cons_erase hp).flatMap_right f
  rwa [List.flatMap_cons] at h₁

theorem refill (h : Inv size n P) (hp : P.cur = some p) (hf : P.free p = o :: l) :
    Inv size n (P.refill p o l) := by
  have hmem := h.cur p hp
  refine ⟨h.slabs, ?_, ?_, ?_, ?_, h.cur⟩
  · refine List.Perm.trans ?_ h.all
    have h₁ := flatMap_update (f := P.free) (l := l) h.slabs hmem
    have h₂ := flatMap_split (f := P.free) hmem
    rw [hf] at h₂
    unfold Pool.all Pool.refill
    simp only [List.append_assoc, List.cons_append]
    refine List.Perm.append_left _ ?_
    refine ((h₁.append_left P.cpu).cons o).trans ?_
    refine List.Perm.trans ?_ (h₂.append_left P.cpu).symm
    exact List.perm_middle.symm
  · intro q hq x hx
    rcases eq_or_ne q p with rfl | hqp
    · refine h.home q hq x ?_
      have : x ∈ l := by simpa [Pool.refill] using hx
      simp [hf, this]
    · exact h.home q hq x (by simpa [Pool.refill, hqp] using hx)
  · intro q hq
    obtain ⟨h₁, h₂, h₃⟩ := h.part q hq
    have hqp : q ≠ p := by
      rintro rfl
      exact h₃ hp
    exact ⟨h₁, by simpa [Pool.refill, hqp] using h₂, h₃⟩
  · intro q hq hne
    rcases eq_or_ne q p with rfl | hqp
    · exact .inl hp
    · exact h.listed q hq (by simpa [Pool.refill, hqp] using hne)

theorem flush (h : Inv size n P) (hc : P.cpu = o :: l) (ho : virtToPage o = p)
    (hp : p ∈ P.slabs) : Inv size n (P.flush p o l) := by
  refine ⟨h.slabs, ?_, ?_, ?_, ?_, h.cur⟩
  · refine List.Perm.trans ?_ h.all
    have h₁ := flatMap_update (f := P.free) (l := o :: P.free p) h.slabs hp
    have h₂ := flatMap_split (f := P.free) hp
    unfold Pool.all Pool.flush
    rw [hc]
    simp only [List.append_assoc, List.cons_append]
    refine List.Perm.append_left _ ?_
    refine (h₁.append_left l).trans ?_
    refine List.Perm.trans ?_ ((h₂.append_left l).cons o).symm
    exact List.perm_middle
  · intro q hq x hx
    rcases eq_or_ne q p with rfl | hqp
    · have hx' : x = o ∨ x ∈ P.free q := by simpa [Pool.flush] using hx
      rcases hx' with rfl | hx'
      · exact ho
      · exact h.home _ hq x hx'
    · exact h.home q hq x (by simpa [Pool.flush, hqp] using hx)
  · intro q hq
    have hfree : P.free q ≠ [] → (P.flush p o l).free q ≠ [] := by
      rcases eq_or_ne q p with rfl | hqp
      · simp [Pool.flush]
      · simp [Pool.flush, hqp]
    simp only [Pool.flush] at hq
    split at hq
    · rename_i hnew
      rcases List.mem_cons.mp hq with rfl | hq
      · exact ⟨hp, by simp [Pool.flush], hnew.1⟩
      · obtain ⟨h₁, h₂, h₃⟩ := h.part q hq
        exact ⟨h₁, hfree h₂, h₃⟩
    · obtain ⟨h₁, h₂, h₃⟩ := h.part q hq
      exact ⟨h₁, hfree h₂, h₃⟩
  · intro q hq hne
    rcases eq_or_ne q p with rfl | hqp
    · by_cases hcur : P.cur = some q
      · exact .inl hcur
      · right
        by_cases hpart : q ∈ P.part
        · simp [Pool.flush, hpart]
        · simp [Pool.flush, hpart, hcur]
    · rcases h.listed q hq (by simpa [Pool.flush, hqp] using hne) with hcur | hpart
      · exact .inl hcur
      · right
        simp only [Pool.flush]
        split
        · simp [hpart]
        · exact hpart

theorem take (h : Inv size n P) (hc : P.cpu = o :: l) : Inv size n (P.take o l) := by
  refine ⟨h.slabs, ?_, h.home, h.part, h.listed, h.cur⟩
  refine List.Perm.trans ?_ h.all
  unfold Pool.all Pool.take
  rw [hc]
  simp only [List.append_assoc, List.cons_append]
  exact List.perm_middle.symm

theorem give (h : Inv size n P) (ho : o ∈ P.live) : Inv size n (P.give o) := by
  refine ⟨h.slabs, ?_, h.home, h.part, h.listed, h.cur⟩
  refine List.Perm.trans ?_ h.all
  unfold Pool.all Pool.give
  simp only [List.append_assoc, List.cons_append]
  refine List.perm_middle.trans ?_
  rw [← List.cons_append]
  exact List.Perm.append_right _ (List.perm_cons_erase ho).symm

theorem grow (h : Inv size n P) (hn : n * size ≤ pgsize) (hs : 0 < size) (hp : p ∉ P.slabs)
    (hc : ∀ q ∈ P.cur, P.free q = []) : Inv size n (P.grow size n p) := by
  have hold : ∀ q ∈ P.slabs, (P.grow size n p).free q = P.free q := by
    intro q hq
    refine Function.update_of_ne ?_ _ _
    rintro rfl
    exact hp hq
  refine ⟨List.nodup_cons.mpr ⟨hp, h.slabs⟩, ?_, ?_, ?_, ?_, ?_⟩
  · have hflat : P.slabs.flatMap (P.grow size n p).free = P.slabs.flatMap P.free :=
      List.flatMap_congr hold
    unfold Pool.all at *
    change (P.live ++ P.cpu ++ (p :: P.slabs).flatMap (P.grow size n p).free).Perm
      ((p :: P.slabs).flatMap (objectsOf size n))
    rw [List.flatMap_cons, List.flatMap_cons, hflat]
    have hself : (P.grow size n p).free p = objectsOf size n p := Function.update_self ..
    rw [hself]
    refine List.perm_append_comm_assoc _ _ _ |>.trans ?_
    exact h.all.append_left _
  · intro q hq o ho
    rcases List.mem_cons.mp hq with rfl | hq
    · have ho' : o ∈ objectsOf size n q := by simpa [Pool.grow] using ho
      exact virtToPage_of_mem hn hs ho'
    · rw [hold q hq] at ho
      exact h.home q hq o ho
  · intro q hq
    obtain ⟨h₁, h₂, h₃⟩ := h.part q hq
    refine ⟨List.mem_cons_of_mem p h₁, by rwa [hold q h₁], ?_⟩
    intro he
    obtain rfl : p = q := by simpa [Pool.grow] using he
    exact hp h₁
  · intro q hq hne
    rcases List.mem_cons.mp hq with rfl | hq
    · exact .inl rfl
    · rw [hold q hq] at hne
      rcases h.listed q hq hne with hcur | hpart
      · exact absurd (hc q hcur) hne
      · exact .inr hpart
  · intro q hq
    obtain rfl : p = q := by simpa [Pool.grow] using hq
    exact List.mem_cons_self

theorem switch (h : Inv size n P) (hnd : P.part.Nodup) (hp : p ∈ P.part)
    (hc : ∀ q ∈ P.cur, P.free q = []) : Inv size n (P.switch p) := by
  refine ⟨h.slabs, h.all, h.home, ?_, ?_, ?_⟩
  · intro q hq
    have hq' : q ∈ P.part.erase p := hq
    obtain ⟨h₁, h₂, -⟩ := h.part q (List.mem_of_mem_erase hq')
    refine ⟨h₁, h₂, ?_⟩
    intro he
    obtain rfl : p = q := by simpa [Pool.switch] using he
    exact hnd.not_mem_erase hq'
  · intro q hq hne
    rcases eq_or_ne q p with rfl | hqp
    · exact .inl rfl
    · rcases h.listed q hq hne with hcur | hpart
      · exact absurd (hc q hcur) hne
      · exact .inr ((List.mem_erase_of_ne hqp).mpr hpart)
  · intro q hq
    obtain rfl : p = q := by simpa [Pool.switch] using hq
    exact (h.part p hp).1

theorem retire (h : Inv size n P) (hc : ∀ q ∈ P.cur, P.free q = []) : Inv size n P.retire := by
  refine ⟨h.slabs, h.all, h.home, ?_, ?_, by simp [Pool.retire]⟩
  · intro q hq
    obtain ⟨h₁, h₂, -⟩ := h.part q hq
    exact ⟨h₁, h₂, by simp [Pool.retire]⟩
  · intro q hq hne
    rcases h.listed q hq hne with hcur | hpart
    · exact absurd (hc q hcur) hne
    · exact .inr hpart

section Count

variable (h : Inv size n P) (hn : n * size ≤ pgsize) (hs : 0 < size)
include h

omit h in
theorem countP_flatMap {f : ℕ → List ℕ} {slabs : List ℕ} (hl : slabs.Nodup) (hp : p ∈ slabs)
    (hf : ∀ q ∈ slabs, ∀ o ∈ f q, virtToPage o = q) :
    (slabs.flatMap f).countP (virtToPage · = p) = (f p).length := by
  rw [(flatMap_split hp).countP_eq, List.countP_append, List.countP_eq_length.mpr,
    List.countP_eq_zero.mpr, Nat.add_zero]
  · intro o ho
    obtain ⟨q, hq, hoq⟩ := List.mem_flatMap.mp ho
    have hne : q ≠ p := by
      rintro rfl
      exact hl.not_mem_erase hq
    simpa [hf q (List.mem_of_mem_erase hq) o hoq] using hne
  · intro o ho
    simpa using hf p hp o ho

include hn hs

theorem nodup : P.all.Nodup := h.all.nodup_iff.mpr (nodup_flatMap hn hs h.slabs)

omit hn hs in
theorem exists_page (ho : o ∈ P.all) : ∃ p ∈ P.slabs, o ∈ objectsOf size n p :=
  List.mem_flatMap.mp (h.all.mem_iff.mp ho)

theorem page_mem (ho : o ∈ P.all) : virtToPage o ∈ P.slabs := by
  obtain ⟨p, hp, hop⟩ := h.exists_page ho
  rwa [virtToPage_of_mem hn hs hop]

omit hn hs in
theorem ne_zero (ho : o ∈ P.all) : o ≠ 0 := by
  obtain ⟨p, -, hop⟩ := h.exists_page ho
  exact ne_zero_of_mem hop

theorem card (hp : p ∈ P.slabs) : P.live.countP (virtToPage · = p) +
    P.cpu.countP (virtToPage · = p) + (P.free p).length = n := by
  have h₁ := h.all.countP_eq (virtToPage · = p)
  rw [Pool.all, List.countP_append, List.countP_append, countP_flatMap h.slabs hp h.home,
    countP_flatMap h.slabs hp fun q _ o ho => virtToPage_of_mem hn hs ho] at h₁
  simpa [objectsOf] using h₁

end Count

end Inv

end Pool

end UCore.Slub
