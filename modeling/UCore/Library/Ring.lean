import Mathlib.Data.List.Nodup
import Mathlib.Logic.Function.Basic

/-! # Circular doubly linked lists

A heap of nodes with a predecessor and a successor pointer each. A ring is a
cycle through a distinguished node on which the two pointers are inverse.
Insertion and removal at one node act on the sequence of the other nodes.
-/

namespace Library

variable {α : Type*}

/-- The predecessor and successor pointers of every node. -/
structure Links (α : Type*) where
  prev : α → α
  next : α → α

namespace Links

/-- The nodes of `xs` follow `a` and precede `b`, with matching pointers. -/
def Path (L : Links α) : α → List α → α → Prop
  | a, [], b => L.next a = b ∧ L.prev b = a
  | a, x :: xs, b => (L.next a = x ∧ L.prev x = a) ∧ L.Path x xs b

/-- The cycle through `h` visits exactly the nodes of `xs`, in this order. -/
structure Ring (L : Links α) (h : α) (xs : List α) : Prop where
  path : L.Path h xs h
  nodup : (h :: xs).Nodup

variable {L L' : Links α} {a b e h x : α} {xs ys : List α}

@[simp] theorem path_nil : L.Path a [] b ↔ L.next a = b ∧ L.prev b = a := Iff.rfl

@[simp] theorem path_cons :
    L.Path a (x :: xs) b ↔ (L.next a = x ∧ L.prev x = a) ∧ L.Path x xs b := Iff.rfl

theorem path_append_cons :
    L.Path a (xs ++ x :: ys) b ↔ L.Path a xs x ∧ L.Path x ys b := by
  induction xs generalizing a with
  | nil => simp
  | cons y xs ih => simp [ih, and_assoc]

/-- A path reads the successors of all nodes but its end, and the predecessors
of all nodes but its start. -/
theorem Path.congr (hp : L.Path a xs b) (hn : ∀ x ∈ a :: xs, L'.next x = L.next x)
    (hq : ∀ x ∈ b :: xs, L'.prev x = L.prev x) : L'.Path a xs b := by
  induction xs generalizing a with
  | nil => exact ⟨(hn a (by simp)).trans hp.1, (hq b (by simp)).trans hp.2⟩
  | cons y xs ih =>
    obtain ⟨⟨h₁, h₂⟩, hp⟩ := hp
    refine ⟨⟨(hn a (by simp)).trans h₁, (hq y (by simp)).trans h₂⟩, ih hp ?_ ?_⟩
    · intro z hz; exact hn z (List.mem_cons_of_mem _ hz)
    · intro z hz
      rcases List.mem_cons.mp hz with rfl | hz
      · exact hq z (by simp)
      · exact hq z (by simp [hz])

theorem Path.next_eq (hp : L.Path a xs b) : L.next a = (xs ++ [b]).head (by simp) := by
  cases xs with
  | nil => exact hp.1
  | cons y xs => exact hp.1.1

theorem Path.prev_eq (hp : L.Path a xs b) : L.prev b = (a :: xs).getLast (by simp) := by
  induction xs generalizing a with
  | nil => exact hp.2
  | cons y xs ih => simpa using ih hp.2

theorem Path.unique (hp : L.Path a xs b) (hq : L.Path a ys b) (hx : b ∉ xs) (hy : b ∉ ys) :
    xs = ys := by
  induction xs generalizing a ys with
  | nil =>
    cases ys with
    | nil => rfl
    | cons y ys => exact absurd (hp.1.symm.trans hq.1.1) fun h => hy (by simp [h])
  | cons x xs ih =>
    cases ys with
    | nil => exact absurd (hq.1.symm.trans hp.1.1) fun h => hx (by simp [h])
    | cons y ys =>
      obtain rfl : x = y := hp.1.1.symm.trans hq.1.1
      rw [ih hp.2 hq.2 (fun h => hx (List.mem_cons_of_mem _ h))
        fun h => hy (List.mem_cons_of_mem _ h)]

theorem Path.inverse (hp : L.Path a xs b) :
    (∀ x ∈ a :: xs, L.prev (L.next x) = x) ∧ ∀ x ∈ b :: xs, L.next (L.prev x) = x := by
  induction xs generalizing a with
  | nil => simp [hp.1, hp.2]
  | cons y xs ih =>
    obtain ⟨⟨h₁, h₂⟩, hp⟩ := hp
    obtain ⟨hl, hr⟩ := ih hp
    refine ⟨?_, ?_⟩
    · intro x hx
      rcases List.mem_cons.mp hx with rfl | hx
      · rw [h₁, h₂]
      · exact hl x hx
    · intro x hx
      rcases List.mem_cons.mp hx with rfl | hx
      · exact hr x (by simp)
      · rcases List.mem_cons.mp hx with rfl | hx
        · rw [h₂, h₁]
        · exact hr x (by simp [hx])

namespace Ring

theorem prev_next (r : L.Ring h xs) : ∀ x ∈ h :: xs, L.prev (L.next x) = x := r.path.inverse.1

theorem next_prev (r : L.Ring h xs) : ∀ x ∈ h :: xs, L.next (L.prev x) = x := r.path.inverse.2

theorem next_head (r : L.Ring h xs) : L.next h = (xs ++ [h]).head (by simp) := r.path.next_eq

theorem prev_head (r : L.Ring h xs) : L.prev h = (h :: xs).getLast (by simp) := r.path.prev_eq

theorem not_mem (r : L.Ring h xs) : h ∉ xs := (List.nodup_cons.mp r.nodup).1

theorem nodup_tail (r : L.Ring h xs) : xs.Nodup := (List.nodup_cons.mp r.nodup).2

theorem next_head_eq_iff (r : L.Ring h xs) : L.next h = h ↔ xs = [] := by
  cases xs with
  | nil => simpa using r.path.1
  | cons y xs =>
    have hy : L.next h = y := r.path.1.1
    have hne : y ≠ h := fun he => r.not_mem (by simp [he])
    simp [hy, hne]

theorem next_mem (r : L.Ring h (xs ++ x :: ys)) : L.next x = (ys ++ [h]).head (by simp) :=
  (path_append_cons.mp r.path).2.next_eq

theorem prev_mem (r : L.Ring h (xs ++ x :: ys)) :
    L.prev x = (h :: xs).getLast (by simp) :=
  (path_append_cons.mp r.path).1.prev_eq

theorem rotate (r : L.Ring h (xs ++ x :: ys)) : L.Ring x (ys ++ h :: xs) where
  path := by
    obtain ⟨h₁, h₂⟩ := path_append_cons.mp r.path
    exact path_append_cons.mpr ⟨h₂, h₁⟩
  nodup := by
    have hp : (x :: (ys ++ h :: xs)).Perm (h :: (xs ++ x :: ys)) := by
      have h₁ : (x :: ys ++ h :: xs).Perm (h :: xs ++ x :: ys) := List.perm_append_comm
      simpa using h₁
    exact hp.nodup_iff.mpr r.nodup

theorem congr (r : L.Ring h xs) (hn : ∀ x ∈ h :: xs, L'.next x = L.next x)
    (hq : ∀ x ∈ h :: xs, L'.prev x = L.prev x) : L'.Ring h xs :=
  ⟨r.path.congr hn hq, r.nodup⟩

theorem next_mem_ring (r : L.Ring h xs) (hx : x ∈ h :: xs) : L.next x ∈ h :: xs := by
  rcases List.mem_cons.mp hx with rfl | hx
  · rw [r.next_head]
    rcases List.mem_append.mp (List.head_mem (l := xs ++ [x]) (by simp)) with hz | hz
    · simp [hz]
    · simp [List.mem_singleton.mp hz]
  · obtain ⟨ys, zs, rfl⟩ := List.append_of_mem hx
    rw [r.next_mem]
    rcases List.mem_append.mp (List.head_mem (l := zs ++ [h]) (by simp)) with hz | hz
    · simp [hz]
    · simp [List.mem_singleton.mp hz]

theorem prev_mem_ring (r : L.Ring h xs) (hx : x ∈ h :: xs) : L.prev x ∈ h :: xs := by
  rcases List.mem_cons.mp hx with rfl | hx
  · rw [r.prev_head]
    exact List.getLast_mem _
  · obtain ⟨ys, zs, rfl⟩ := List.append_of_mem hx
    rw [r.prev_mem]
    rcases List.mem_cons.mp (List.getLast_mem (l := h :: ys) (by simp)) with hz | hz
    · simp [hz]
    · simp [hz]

end Ring

section Families

variable {ι : Type*} {hd : ι → α} {f : ι → List α} {i : ι}

/-- Rings through the heads `hd i`, no two of which share a node. -/
structure Rings (L : Links α) (hd : ι → α) (f : ι → List α) : Prop where
  ring : ∀ i, L.Ring (hd i) (f i)
  disjoint : ∀ i j, i ≠ j → (hd i :: f i).Disjoint (hd j :: f j)

namespace Rings

/-- A change inside one ring, which may take nodes of no ring, keeps the others. -/
theorem update [DecidableEq ι] (r : L.Rings hd f) (hr : L'.Ring (hd i) ys)
    (hs : ∀ y ∈ ys, y ∈ f i ∨ ∀ j, y ∉ hd j :: f j)
    (hn : ∀ y, y ∉ hd i :: f i → y ∉ ys → L'.next y = L.next y ∧ L'.prev y = L.prev y) :
    L'.Rings hd (Function.update f i ys) := by
  have hout : ∀ j, j ≠ i → ∀ y ∈ hd j :: f j, y ∉ hd i :: f i ∧ y ∉ ys := by
    intro j hj y hy
    have hi : y ∉ hd i :: f i := fun h => r.disjoint j i hj hy h
    refine ⟨hi, fun h => ?_⟩
    rcases hs y h with h | h
    · exact hi (List.mem_cons_of_mem _ h)
    · exact h j hy
  have hkeep : ∀ j, j ≠ i → L'.Ring (hd j) (f j) := by
    intro j hj
    apply (r.ring j).congr
    · intro y hy; exact (hn y (hout j hj y hy).1 (hout j hj y hy).2).1
    · intro y hy; exact (hn y (hout j hj y hy).1 (hout j hj y hy).2).2
  have hdis : ∀ j, j ≠ i → (hd i :: ys).Disjoint (hd j :: f j) := by
    intro j hj y hy hy'
    rcases List.mem_cons.mp hy with rfl | hy
    · exact (hout j hj _ hy').1 (by simp)
    · exact (hout j hj y hy').2 hy
  constructor
  · intro j
    rcases eq_or_ne j i with rfl | hj
    · simpa using hr
    · simpa [hj] using hkeep j hj
  · intro j k hjk
    rcases eq_or_ne j i with rfl | hj
    · simpa [hjk.symm] using hdis k hjk.symm
    · rcases eq_or_ne k i with rfl | hk
      · have : (hd j :: f j).Disjoint (hd k :: ys) := fun y h h' => hdis j hj h' h
        simpa [hj] using this
      · simpa [hj, hk] using r.disjoint j k hjk

end Rings

end Families

variable [DecidableEq α]

/-- Store into the successor pointer of `a`. -/
def setNext (L : Links α) (a b : α) : Links α := { L with next := Function.update L.next a b }

/-- Store into the predecessor pointer of `a`. -/
def setPrev (L : Links α) (a b : α) : Links α := { L with prev := Function.update L.prev a b }

@[simp] theorem setNext_prev : (L.setNext a b).prev = L.prev := rfl
@[simp] theorem setPrev_next : (L.setPrev a b).next = L.next := rfl

theorem setNext_next (x : α) : (L.setNext a b).next x = if x = a then b else L.next x := by
  simp [setNext, Function.update_apply]

theorem setPrev_prev (x : α) : (L.setPrev a b).prev x = if x = a then b else L.prev x := by
  simp [setPrev, Function.update_apply]

/-- Make `a` and `b` neighbours. -/
def join (L : Links α) (a b : α) : Links α := (L.setNext a b).setPrev b a

/-- Put `e` between `a` and `b`. -/
def splice (L : Links α) (e a b : α) : Links α := (L.join a e).join e b

theorem join_next (x : α) : (L.join a b).next x = if x = a then b else L.next x := by
  simp [join, setNext_next]

theorem join_prev (x : α) : (L.join a b).prev x = if x = b then a else L.prev x := by
  simp [join, setPrev_prev]

theorem splice_next (x : α) :
    (L.splice e a b).next x = if x = e then b else if x = a then e else L.next x := by
  simp [splice, join_next]

theorem splice_prev (x : α) :
    (L.splice e a b).prev x = if x = b then e else if x = e then a else L.prev x := by
  simp [splice, join_prev]

namespace Ring

/-- A new node after the entry of the ring. -/
theorem spliceAfter (r : L.Ring h xs) (he : e ∉ h :: xs) :
    (L.splice e h (L.next h)).Ring h (e :: xs) := by
  have hne : h ≠ e := fun h => he (by simp [h])
  refine ⟨?_, ?_⟩
  · cases xs with
    | nil =>
      have hn : L.next h = h := r.path.1
      simp [splice_next, splice_prev, hn, hne, hne.symm]
    | cons y ys =>
      obtain ⟨⟨hy, -⟩, hp⟩ := r.path
      have hye : y ≠ e := fun h => he (by simp [h])
      have hyh : y ≠ h := fun h => r.not_mem (by simp [h])
      refine ⟨?_, ?_, ?_⟩
      · simp [splice_next, splice_prev, hy, hne, hye.symm]
      · simp [splice_next, splice_prev, hy]
      · refine hp.congr ?_ ?_
        · intro z hz
          have hze : z ≠ e := fun h => he (h ▸ List.mem_cons_of_mem _ hz)
          have hzh : z ≠ h := fun h => r.not_mem (h ▸ hz)
          simp [splice_next, hze, hzh]
        · intro z hz
          have hzy : z ≠ y := by
            rintro rfl
            rcases List.mem_cons.mp hz with rfl | hz
            · exact hyh rfl
            · exact (List.nodup_cons.mp r.nodup_tail).1 hz
          have hze : z ≠ e := by
            rintro rfl
            rcases List.mem_cons.mp hz with rfl | hz
            · exact hne rfl
            · exact he (by simp [hz])
          simp [splice_prev, hy, hzy, hze]
  · have hn := r.nodup
    simp only [List.mem_cons, not_or, List.nodup_cons] at he hn ⊢
    exact ⟨⟨hne, hn.1⟩, he.2, hn.2⟩

theorem spliceAfter_mem (r : L.Ring h (xs ++ x :: ys)) (he : e ∉ h :: (xs ++ x :: ys)) :
    (L.splice e x (L.next x)).Ring h (xs ++ x :: e :: ys) := by
  have he' : e ∉ x :: (ys ++ h :: xs) := by simp at he ⊢; tauto
  have hr : (L.splice e x (L.next x)).Ring x ((e :: ys) ++ h :: xs) := r.rotate.spliceAfter he'
  simpa using hr.rotate

theorem spliceBefore_mem (r : L.Ring h (xs ++ x :: ys)) (he : e ∉ h :: (xs ++ x :: ys)) :
    (L.splice e (L.prev x) x).Ring h (xs ++ e :: x :: ys) := by
  have hx : L.next (L.prev x) = x := r.next_prev x (by simp)
  rcases List.eq_nil_or_concat xs with rfl | ⟨zs, z, rfl⟩
  · have hz : L.prev x = h := by simpa using r.prev_mem
    have := r.spliceAfter he
    rw [← hz, hx] at this
    simpa [hz] using this
  · have hz : L.prev x = z := by simpa using r.prev_mem
    have r' : L.Ring h (zs ++ z :: x :: ys) := by simpa using r
    have := r'.spliceAfter_mem (by simpa using he)
    rw [← hz, hx] at this
    simpa [hz] using this

theorem spliceBefore (r : L.Ring h xs) (he : e ∉ h :: xs) :
    (L.splice e (L.prev h) h).Ring h (xs ++ [e]) := by
  rcases List.eq_nil_or_concat xs with rfl | ⟨zs, z, rfl⟩
  · have hp : L.prev h = h := r.path.2
    have hn : L.next h = h := r.path.1
    have := r.spliceAfter he
    rw [hn] at this
    simpa [hp] using this
  · have hz : L.prev h = z := by simpa using r.prev_head
    have hx : L.next z = h := by
      rw [← hz]; exact r.next_prev h (by simp)
    have r' : L.Ring h (zs ++ z :: []) := by simpa using r
    have := r'.spliceAfter_mem (by simpa using he)
    rw [hx, ← hz] at this
    simpa [hz] using this

theorem unlink_first (r : L.Ring h (x :: ys)) : (L.join h (L.next x)).Ring h ys := by
  refine ⟨?_, r.nodup.sublist ((List.sublist_cons_self x ys).cons_cons h)⟩
  obtain ⟨-, hp⟩ := r.path
  cases ys with
  | nil =>
    have hn : L.next x = h := hp.1
    simp [join_next, join_prev, hn]
  | cons y ys =>
    obtain ⟨⟨hy, -⟩, hp⟩ := hp
    have hd := r.nodup
    simp only [List.nodup_cons, List.mem_cons, not_or] at hd
    refine ⟨by simp [join_next, join_prev, hy], hp.congr ?_ ?_⟩
    · intro z hz
      have hzh : z ≠ h := by
        rintro rfl
        rcases List.mem_cons.mp hz with rfl | hz
        · exact hd.1.2.1 rfl
        · exact hd.1.2.2 hz
      simp [join_next, hzh]
    · intro z hz
      have hzy : z ≠ y := by
        rintro rfl
        rcases List.mem_cons.mp hz with rfl | hz
        · exact hd.1.2.1 rfl
        · exact hd.2.2.1 hz
      simp [join_prev, hy, hzy]

theorem unlink (r : L.Ring h (xs ++ x :: ys)) :
    (L.join (L.prev x) (L.next x)).Ring h (xs ++ ys) := by
  rcases List.eq_nil_or_concat xs with rfl | ⟨zs, z, rfl⟩
  · have hz : L.prev x = h := by simpa using r.prev_mem
    rw [hz]
    exact r.unlink_first
  · have hz : L.prev x = z := by simpa using r.prev_mem
    have r' : L.Ring h (zs ++ z :: (x :: ys)) := by simpa using r
    rw [hz]
    simpa using r'.rotate.unlink_first.rotate

end Ring

end Links

end Library
