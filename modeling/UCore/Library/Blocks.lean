import Mathlib.Algebra.Order.Ring.Nat
import Mathlib.Data.Finset.Card
import Mathlib.Order.Interval.Finset.Nat

/-! # Sequences of disjoint blocks

Blocks of consecutive numbers inside a fixed range, given by the increasing
sequence of their heads and by a size for each head. Insertion, removal and
joining of blocks act on the heads, on the numbers covered and on the total size.
-/

namespace Library

/-- The numbers of `[b, b + n)`. -/
abbrev span (b n : ℕ) : Finset ℕ := Finset.Ico b (b + n)

/-- The numbers covered by the blocks with heads `bs`. -/
def cells (size : ℕ → ℕ) : List ℕ → Finset ℕ
  | [] => ∅
  | b :: bs => span b (size b) ∪ cells size bs

/-- The blocks with heads `bs` are non-empty, lie in `[lo, hi)` and follow one another. -/
structure Blocks (lo hi : ℕ) (size : ℕ → ℕ) (bs : List ℕ) : Prop where
  sep : bs.Pairwise fun a b => a + size a ≤ b
  pos : ∀ b ∈ bs, 0 < size b
  low : ∀ b ∈ bs, lo ≤ b
  high : ∀ b ∈ bs, b + size b ≤ hi

section Cells

variable {size size' : ℕ → ℕ} {bs xs ys : List ℕ} {p b : ℕ}

@[simp] theorem mem_cells : p ∈ cells size bs ↔ ∃ b ∈ bs, b ≤ p ∧ p < b + size b := by
  induction bs with
  | nil => simp [cells]
  | cons b bs ih => simp [cells, ih]

theorem cells_append : cells size (xs ++ ys) = cells size xs ∪ cells size ys := by
  ext p
  simp [or_and_right, exists_or]

theorem cells_congr (h : ∀ b ∈ bs, size' b = size b) : cells size' bs = cells size bs := by
  ext p
  simp only [mem_cells]
  exact exists_congr fun b => and_congr_right fun hb => by rw [h b hb]

end Cells

namespace Blocks

variable {lo hi : ℕ} {size size' : ℕ → ℕ} {bs xs ys : List ℕ} {p q b n : ℕ}

theorem nil : Blocks lo hi size [] := ⟨by simp, by simp, by simp, by simp⟩

theorem sorted (w : Blocks lo hi size bs) : bs.Pairwise (· < ·) := by
  refine w.sep.imp_of_mem ?_
  intro a b ha _ h
  have := w.pos a ha
  omega

theorem nodup (w : Blocks lo hi size bs) : bs.Nodup := w.sorted.imp fun h => Nat.ne_of_lt h

theorem head_mem_cells (w : Blocks lo hi size bs) (hb : b ∈ bs) : b ∈ cells size bs :=
  mem_cells.mpr ⟨b, hb, le_rfl, Nat.lt_add_of_pos_right (w.pos b hb)⟩

theorem cells_subset (w : Blocks lo hi size bs) : cells size bs ⊆ Finset.Ico lo hi := by
  intro p hp
  obtain ⟨b, hb, hle, hlt⟩ := mem_cells.mp hp
  have := w.low b hb
  have := w.high b hb
  simp
  omega

theorem card_cells (w : Blocks lo hi size bs) : (cells size bs).card = (bs.map size).sum := by
  have h := w.sep
  clear w
  induction bs with
  | nil => rfl
  | cons b bs ih =>
    obtain ⟨hb, hbs⟩ := List.pairwise_cons.mp h
    have hd : Disjoint (span b (size b)) (cells size bs) := by
      rw [Finset.disjoint_left]
      intro p hp hq
      obtain ⟨a, ha, hle, -⟩ := mem_cells.mp hq
      have := hb a ha
      simp at hp
      omega
    rw [cells, Finset.card_union_of_disjoint hd, ih hbs]
    simp

theorem countP_eq (w : Blocks lo hi size bs) (p : ℕ) :
    bs.countP (fun b => decide (p ∈ span b (size b))) = if p ∈ cells size bs then 1 else 0 := by
  have h := w.sep
  clear w
  induction bs with
  | nil => simp
  | cons b bs ih =>
    obtain ⟨hb, hbs⟩ := List.pairwise_cons.mp h
    rw [List.countP_cons, ih hbs]
    by_cases hp : p ∈ span b (size b)
    · have hn : p ∉ cells size bs := by
        intro hq
        obtain ⟨a, ha, hle, -⟩ := mem_cells.mp hq
        have := hb a ha
        simp at hp
        omega
      have hc : p ∈ cells size (b :: bs) := Finset.mem_union_left _ hp
      rw [if_neg hn, if_pos hc]
      simpa using hp
    · have hc : p ∈ cells size (b :: bs) ↔ p ∈ cells size bs := by
        rw [cells, Finset.mem_union]
        exact or_iff_right hp
      simp only [hc, hp]
      simp

theorem length_le (w : Blocks lo hi size bs) : bs.length ≤ (bs.map size).sum := by
  have hs : bs.toFinset ⊆ cells size bs := fun b hb => w.head_mem_cells (List.mem_toFinset.mp hb)
  have hc := Finset.card_le_card hs
  rwa [List.toFinset_card_of_nodup w.nodup, w.card_cells] at hc

theorem add_le (w : Blocks lo hi size bs) (hl : lo ≤ b) (hh : b + n ≤ hi)
    (hd : Disjoint (span b n) (cells size bs)) : (bs.map size).sum + n ≤ hi - lo := by
  have hs : span b n ∪ cells size bs ⊆ Finset.Ico lo hi :=
    Finset.union_subset (Finset.Ico_subset_Ico hl hh) w.cells_subset
  have := Finset.card_le_card hs
  rw [Finset.card_union_of_disjoint hd, w.card_cells] at this
  simp at this
  omega

theorem sum_le (w : Blocks lo hi size bs) : (bs.map size).sum ≤ hi - lo := by
  rw [← w.card_cells]
  simpa using Finset.card_le_card w.cells_subset

theorem congr (w : Blocks lo hi size bs) (h : ∀ b ∈ bs, size' b = size b) :
    Blocks lo hi size' bs where
  sep := w.sep.imp_of_mem fun ha _ hab => by rw [h _ ha]; exact hab
  pos b hb := by rw [h b hb]; exact w.pos b hb
  low := w.low
  high b hb := by rw [h b hb]; exact w.high b hb

theorem sublist (w : Blocks lo hi size bs) (h : xs.Sublist bs) : Blocks lo hi size xs where
  sep := w.sep.sublist h
  pos b hb := w.pos b (h.subset hb)
  low b hb := w.low b (h.subset hb)
  high b hb := w.high b (h.subset hb)

theorem split (w : Blocks lo hi size bs) (hn : 0 < n) (hd : Disjoint (span b n) (cells size bs)) :
    ∃ xs ys, bs = xs ++ ys ∧ (∀ x ∈ xs, x + size x ≤ b) ∧ ∀ y ∈ ys, b + n ≤ y := by
  have hb : ∀ a ∈ bs, a + size a ≤ b ∨ b + n ≤ a := by
    intro a ha
    by_contra hc
    have hp := w.pos a ha
    rcases Nat.lt_or_ge a b with h | h
    · have hm : b ∈ span b n := by simp; omega
      exact Finset.disjoint_left.mp hd hm (mem_cells.mpr ⟨a, ha, by omega, by omega⟩)
    · have hm : a ∈ span b n := by simp; omega
      exact Finset.disjoint_left.mp hd hm (w.head_mem_cells ha)
  have hs := w.sorted
  clear hd w
  induction bs with
  | nil => exact ⟨[], [], rfl, by simp, by simp⟩
  | cons a bs ih =>
    obtain ⟨hlt, hs⟩ := List.pairwise_cons.mp hs
    rcases hb a (by simp) with h | h
    · obtain ⟨xs, ys, rfl, hx, hy⟩ := ih (fun c hc => hb c (by simp [hc])) hs
      exact ⟨a :: xs, ys, rfl, by simpa using ⟨h, hx⟩, hy⟩
    · refine ⟨[], a :: bs, rfl, by simp, ?_⟩
      intro y hy
      rcases List.mem_cons.mp hy with rfl | hy
      · exact h
      · exact h.trans (hlt y hy).le

section Insert

variable (w : Blocks lo hi size (xs ++ ys)) (hn : 0 < n)
  (hx : ∀ x ∈ xs, x + size x ≤ b) (hy : ∀ y ∈ ys, b + n ≤ y)

include w hn hx hy

theorem not_mem_of_split : b ∉ xs ++ ys := by
  intro hb
  rcases List.mem_append.mp hb with hb | hb
  · have := hx b hb
    have := w.pos b (by simp [hb])
    omega
  · have := hy b hb
    omega

theorem update_of_split : ∀ a ∈ xs ++ ys, Function.update size b n a = size a := by
  intro a ha
  refine Function.update_of_ne ?_ _ _
  rintro rfl
  exact w.not_mem_of_split hn hx hy ha

theorem insert (hl : lo ≤ b) (hh : b + n ≤ hi) :
    Blocks lo hi (Function.update size b n) (xs ++ b :: ys) := by
  have hu := w.update_of_split hn hx hy
  have w' := w.congr hu
  obtain ⟨sx, sy, sxy⟩ := List.pairwise_append.mp w'.sep
  refine ⟨?_, ?_, ?_, ?_⟩
  · refine List.pairwise_append.mpr ⟨sx, List.pairwise_cons.mpr ⟨by simpa using hy, sy⟩, ?_⟩
    intro a ha c hc
    rcases List.mem_cons.mp hc with rfl | hc
    · rw [hu a (by simp [ha])]; exact hx a ha
    · exact sxy a ha c hc
  · intro a ha
    by_cases hab : a = b
    · subst hab; simpa using hn
    · exact w'.pos a (by simpa [hab] using ha)
  · intro a ha
    by_cases hab : a = b
    · subst hab; exact hl
    · exact w'.low a (by simpa [hab] using ha)
  · intro a ha
    by_cases hab : a = b
    · subst hab; simpa using hh
    · exact w'.high a (by simpa [hab] using ha)

theorem cells_insert :
    cells (Function.update size b n) (xs ++ b :: ys) = cells size (xs ++ ys) ∪ span b n := by
  have hu := w.update_of_split hn hx hy
  rw [← cells_congr hu, cells_append, cells_append, cells, Function.update_self]
  ext p
  simp only [Finset.mem_union]
  tauto

theorem sum_insert :
    ((xs ++ b :: ys).map (Function.update size b n)).sum = ((xs ++ ys).map size).sum + n := by
  have hu : (xs ++ ys).map (Function.update size b n) = (xs ++ ys).map size :=
    List.map_congr_left (w.update_of_split hn hx hy)
  rw [← hu]
  simp only [List.map_append, List.map_cons, List.sum_append, List.sum_cons, Function.update_self]
  omega

end Insert

theorem sum_remove :
    ((xs ++ b :: ys).map size).sum = ((xs ++ ys).map size).sum + size b := by
  simp only [List.map_append, List.map_cons, List.sum_append, List.sum_cons]
  omega

section Remove

variable (w : Blocks lo hi size (xs ++ b :: ys))

include w

theorem remove : Blocks lo hi size (xs ++ ys) :=
  w.sublist ((List.sublist_cons_self b ys).append_left xs)

theorem left_le : ∀ x ∈ xs, x + size x ≤ b := by
  intro x hx
  exact (List.pairwise_append.mp w.sep).2.2 x hx b (by simp)

theorem le_right : ∀ y ∈ ys, b + size b ≤ y :=
  (List.pairwise_cons.mp (List.pairwise_append.mp w.sep).2.1).1

theorem cells_remove : cells size (xs ++ ys) = cells size (xs ++ b :: ys) \ span b (size b) := by
  ext p
  simp only [Finset.mem_sdiff, mem_cells, Finset.mem_Ico, List.mem_append, List.mem_cons]
  constructor
  · rintro ⟨a, ha, h₁, h₂⟩
    refine ⟨⟨a, by tauto, h₁, h₂⟩, ?_⟩
    rintro ⟨h₃, h₄⟩
    rcases ha with ha | ha
    · have := w.left_le a ha
      omega
    · have := w.le_right a ha
      omega
  · rintro ⟨⟨a, ha, h₁, h₂⟩, hp⟩
    refine ⟨a, ?_, h₁, h₂⟩
    rcases ha with ha | rfl | ha
    · exact Or.inl ha
    · exact absurd ⟨h₁, h₂⟩ hp
    · exact Or.inr ha

end Remove

section Cut

variable {size' : ℕ → ℕ} {k : ℕ} (w : Blocks lo hi size (xs ++ b :: ys)) (hk : k < size b)
  (hs : ∀ a ∈ xs ++ ys, size' a = size a) (hb : size' (b + k) = size b - k)

include hs hb in
theorem cut_size : ∀ a ∈ xs ++ (b + k) :: ys,
    size' a = Function.update size (b + k) (size b - k) a := by
  intro a ha
  by_cases hab : a = b + k
  · rw [hab, hb, Function.update_self]
  · rw [Function.update_of_ne hab]
    apply hs
    rw [List.mem_append, List.mem_cons] at ha
    rw [List.mem_append]
    exact ha.imp id fun h => h.resolve_left hab

include w

theorem le_cut : ∀ a ∈ xs, a + size a ≤ b + k :=
  fun a ha => (w.left_le a ha).trans (Nat.le_add_right b k)

include hk

theorem cut_not_mem : b + k ∉ xs ++ ys := by
  intro hm
  have hc := w.remove.head_mem_cells hm
  rw [w.cells_remove, Finset.mem_sdiff, Finset.mem_Ico] at hc
  omega

theorem cut_le : ∀ a ∈ ys, b + k + (size b - k) ≤ a := by
  intro a ha
  have := w.le_right a ha
  omega

include hs hb

/-- A block without its first `k` cells. -/
theorem cut : Blocks lo hi size' (xs ++ (b + k) :: ys) := by
  have hlow := w.low b (by simp)
  have hhigh := w.high b (by simp)
  exact (w.remove.insert (by omega) w.le_cut (w.cut_le hk) (by omega) (by omega)).congr
    (cut_size hs hb)

theorem cells_cut :
    cells size' (xs ++ (b + k) :: ys) = cells size (xs ++ b :: ys) \ span b k := by
  have h := w.remove.cells_insert (by omega) w.le_cut (w.cut_le hk)
  rw [← cells_congr (cut_size hs hb), w.cells_remove] at h
  rw [h]
  ext z
  have hz : b ≤ z ∧ z < b + size b → z ∈ cells size (xs ++ b :: ys) :=
    fun hz => mem_cells.mpr ⟨b, by simp, hz.1, hz.2⟩
  simp only [Finset.mem_union, Finset.mem_sdiff, Finset.mem_Ico, not_and, not_lt]
  by_cases hzc : z ∈ cells size (xs ++ b :: ys)
  · simp only [hzc, true_and]
    omega
  · simp only [hzc, false_and, false_or, iff_false]
    intro hlt
    exact hzc (hz ⟨by omega, by omega⟩)

end Cut

section Merge

variable (w : Blocks lo hi size (xs ++ p :: q :: ys)) (hpq : p + size p = q)

include w

theorem merge_left (hpq : p + size p = q) : ∀ y ∈ ys, p + (size p + size q) ≤ y := by
  intro y hy
  have w' : Blocks lo hi size ((xs ++ [p]) ++ q :: ys) := by simpa using w
  have := w'.le_right y hy
  omega

theorem merge_pos : 0 < size p + size q :=
  Nat.add_pos_left (w.pos p (by simp)) _

include hpq

theorem merge : Blocks lo hi (Function.update size p (size p + size q)) (xs ++ p :: ys) := by
  have w' : Blocks lo hi size (xs ++ ys) :=
    w.sublist (((List.sublist_cons_self q ys).cons p).append_left xs)
  have hq := w.high q (by simp)
  exact w'.insert w.merge_pos w.left_le (w.merge_left hpq) (w.low p (by simp)) (by omega)

theorem cells_merge :
    cells (Function.update size p (size p + size q)) (xs ++ p :: ys) =
      cells size (xs ++ p :: q :: ys) := by
  have w' : Blocks lo hi size (xs ++ ys) :=
    w.sublist (((List.sublist_cons_self q ys).cons p).append_left xs)
  rw [w'.cells_insert w.merge_pos w.left_le (w.merge_left hpq), cells_append, cells_append, cells,
    cells]
  ext z
  simp only [Finset.mem_union, Finset.mem_Ico]
  have hz : p ≤ z ∧ z < p + (size p + size q) ↔
      (p ≤ z ∧ z < p + size p) ∨ (q ≤ z ∧ z < q + size q) := by omega
  rw [hz]
  tauto

theorem sum_merge :
    ((xs ++ p :: ys).map (Function.update size p (size p + size q))).sum =
      ((xs ++ p :: q :: ys).map size).sum := by
  have w' : Blocks lo hi size (xs ++ ys) :=
    w.sublist (((List.sublist_cons_self q ys).cons p).append_left xs)
  rw [w'.sum_insert w.merge_pos w.left_le (w.merge_left hpq)]
  simp only [List.map_append, List.map_cons, List.sum_append, List.sum_cons]
  omega

end Merge

end Blocks

/-! ## Blocks with a gap between any two -/

/-- No block starts where another one ends. -/
def Gapped (size : ℕ → ℕ) (bs : List ℕ) : Prop := ∀ b ∈ bs, b + size b ∉ bs

theorem Blocks.gapped_singleton {lo hi b : ℕ} {size : ℕ → ℕ} (w : Blocks lo hi size [b]) :
    Gapped size [b] := by
  intro a ha hm
  have := w.pos a ha
  rw [List.mem_singleton] at ha hm
  omega

namespace Gapped

variable {lo hi : ℕ} {size : ℕ → ℕ} {bs xs ys : List ℕ} {p q b : ℕ}

theorem sublist (g : Gapped size bs) (h : xs.Sublist bs) : Gapped size xs :=
  fun b hb hm => g b (h.subset hb) (h.subset hm)

theorem insert (g : Gapped size (xs ++ ys)) (w : Blocks lo hi size (xs ++ b :: ys))
    (hl : ∀ x ∈ xs, x + size x ≠ b) (hr : b + size b ∉ ys) : Gapped size (xs ++ b :: ys) := by
  have hpos := w.pos b (by simp)
  intro a ha hm
  rw [List.mem_append, List.mem_cons] at ha hm
  by_cases hab : a = b
  · subst hab
    rcases hm with hm | hm | hm
    · have := w.left_le _ hm
      omega
    · omega
    · exact hr hm
  · have ha' : a ∈ xs ∨ a ∈ ys := ha.imp id fun h => h.resolve_left hab
    rcases hm with hm | hm | hm
    · exact g a (List.mem_append.mpr ha') (List.mem_append_left ys hm)
    · rcases ha' with ha' | ha'
      · exact hl a ha' hm
      · have := w.le_right a ha'
        omega
    · exact g a (List.mem_append.mpr ha') (List.mem_append_right xs hm)

theorem cut {size' : ℕ → ℕ} {k : ℕ} (g : Gapped size (xs ++ b :: ys))
    (w : Blocks lo hi size (xs ++ b :: ys)) (hk0 : 0 < k) (hk : k < size b)
    (hs : ∀ a ∈ xs ++ ys, size' a = size a) (hb : size' (b + k) = size b - k) :
    Gapped size' (xs ++ (b + k) :: ys) := by
  have hsub : (xs ++ ys).Sublist (xs ++ b :: ys) := (List.sublist_cons_self b ys).append_left xs
  refine insert (fun a ha => ?_) (w.cut hk hs hb) (fun a ha => ?_) ?_
  · rw [hs a ha]
    exact fun hm => g a (hsub.subset ha) (hsub.subset hm)
  · rw [hs a (List.mem_append_left ys ha)]
    have := w.left_le a ha
    omega
  · rw [hb, show b + k + (size b - k) = b + size b by omega]
    exact fun hm => g b (by simp) (by simp [hm])

theorem merge (hpq : p + size p = q)
    (h : ∀ a ∈ xs ++ q :: ys, a + size a ∉ xs ++ p :: ys) :
    Gapped (Function.update size p (size p + size q)) (xs ++ p :: ys) := by
  intro a ha
  by_cases hap : a = p
  · subst hap
    rw [Function.update_self, ← add_assoc, hpq]
    exact h q (by simp)
  · rw [Function.update_of_ne hap]
    apply h a
    simp only [List.mem_append, List.mem_cons] at ha ⊢
    tauto

end Gapped

/-- The `n` numbers from `b` on have the property, and their two neighbours do not. -/
structure MaximalRun (P : ℕ → Prop) (b n : ℕ) : Prop where
  pos : 0 < n
  all : ∀ p ∈ span b n, P p
  before : ∀ p, p + 1 = b → ¬ P p
  after : ¬ P (b + n)

theorem maximalRun_congr {P Q : ℕ → Prop} {b n : ℕ} (h : ∀ p, P p ↔ Q p) :
    MaximalRun P b n ↔ MaximalRun Q b n := by
  obtain rfl : P = Q := funext fun p => propext (h p)
  rfl

theorem Blocks.apart {lo hi a b : ℕ} {size : ℕ → ℕ} {bs : List ℕ} (w : Blocks lo hi size bs)
    (ha : a ∈ bs) (hb : b ∈ bs) (hab : a < b) : a + size a ≤ b := by
  obtain ⟨xs, ys, rfl⟩ := List.append_of_mem hb
  rcases List.mem_append.mp ha with ha | ha
  · exact w.left_le a ha
  · rcases List.mem_cons.mp ha with rfl | ha
    · exact absurd hab (lt_irrefl a)
    · have := w.le_right a ha
      omega

namespace Gapped

variable {lo hi : ℕ} {size size' : ℕ → ℕ} {bs xs ys : List ℕ} {b n k p : ℕ}

theorem end_not_mem (w : Blocks lo hi size bs) (g : Gapped size bs) (hb : b ∈ bs) :
    b + size b ∉ cells size bs := by
  intro hm
  obtain ⟨a, ha, h₁, h₂⟩ := mem_cells.mp hm
  rcases h₁.eq_or_lt with rfl | h₁
  · exact g b hb ha
  · rcases lt_trichotomy a b with h | rfl | h
    · have := w.apart ha hb h
      omega
    · omega
    · have := w.apart hb ha h
      omega

theorem pred_not_mem (w : Blocks lo hi size bs) (g : Gapped size bs) (hb : p + 1 ∈ bs) :
    p ∉ cells size bs := by
  intro hm
  obtain ⟨a, ha, h₁, h₂⟩ := mem_cells.mp hm
  have hle := w.apart ha hb (by omega)
  have he : a + size a = p + 1 := by omega
  exact g a ha (he ▸ hb)

theorem span_subset (w : Blocks lo hi size bs) (g : Gapped size bs) (hn : 0 < n)
    (h : ∀ p ∈ span b n, p ∈ cells size bs) : ∃ a ∈ bs, a ≤ b ∧ b + n ≤ a + size a := by
  obtain ⟨a, ha, h₁, h₂⟩ := mem_cells.mp (h b (by simpa using hn))
  refine ⟨a, ha, h₁, ?_⟩
  by_contra hlt
  have hm : a + size a ∈ span b n := by
    simp
    omega
  exact end_not_mem w g ha (h _ hm)

theorem maximalRun_iff (w : Blocks lo hi size bs) (g : Gapped size bs) :
    MaximalRun (· ∈ cells size bs) b n ↔ b ∈ bs ∧ size b = n := by
  constructor
  · intro h
    obtain ⟨a, ha, h₁, h₂⟩ := span_subset w g h.pos h.all
    have hab : a = b := by
      by_contra hne
      have hm : b - 1 ∈ cells size bs := mem_cells.mpr ⟨a, ha, by omega, by omega⟩
      exact h.before (b - 1) (by omega) hm
    subst hab
    have hs : ¬ n < size a := fun hlt =>
      h.after (mem_cells.mpr ⟨a, ha, by omega, by omega⟩)
    exact ⟨ha, by omega⟩
  · rintro ⟨hb, rfl⟩
    constructor
    · exact w.pos b hb
    · intro p hp
      obtain ⟨h₁, h₂⟩ := Finset.mem_Ico.mp hp
      exact mem_cells.mpr ⟨b, hb, h₁, h₂⟩
    · rintro p rfl
      exact pred_not_mem w g hb
    · exact end_not_mem w g hb

/-- The first block of at least `k` numbers in increasing order heads the lowest maximal run that
is long enough. -/
theorem find?_eq_some (w : Blocks lo hi size bs) (g : Gapped size bs)
    (h : bs.find? (fun b => decide (k ≤ size b)) = some b) :
    MaximalRun (· ∈ cells size bs) b (size b) ∧ k ≤ size b ∧
      ∀ a n, MaximalRun (· ∈ cells size bs) a n → k ≤ n → b ≤ a := by
  obtain ⟨hk, xs, ys, rfl, hx⟩ := List.find?_eq_some_iff_append.mp h
  refine ⟨(maximalRun_iff w g).mpr ⟨by simp, rfl⟩, by simpa using hk, ?_⟩
  intro a n hr hn
  obtain ⟨ha, rfl⟩ := (maximalRun_iff w g).mp hr
  rcases List.mem_append.mp ha with ha | ha
  · exact absurd hn (by simpa using hx a ha)
  · rcases List.mem_cons.mp ha with rfl | ha
    · exact le_rfl
    · have := w.le_right a ha
      omega

theorem find?_eq_none (w : Blocks lo hi size bs) (g : Gapped size bs) (hk : 0 < k) :
    bs.find? (fun b => decide (k ≤ size b)) = none ↔
      ∀ b, ¬ ∀ p ∈ span b k, p ∈ cells size bs := by
  rw [List.find?_eq_none]
  constructor
  · intro h b hb
    obtain ⟨a, ha, h₁, h₂⟩ := span_subset w g hk hb
    have := h a ha
    simp at this
    omega
  · intro h b hb hle
    apply h b
    intro p hp
    obtain ⟨h₁, h₂⟩ := Finset.mem_Ico.mp hp
    have := of_decide_eq_true hle
    exact mem_cells.mpr ⟨b, hb, h₁, by omega⟩

end Gapped

end Library
