import Mathlib.Algebra.Order.Ring.Nat
import Mathlib.Data.Nat.Log
import Mathlib.Tactic.Ring

/-! # Perfect binary trees

The nodes of a perfect binary tree, numbered row by row from the root `1`: the
parent of `v` is `v / 2`, and its ancestors are the quotients by powers of two.
-/

namespace Library.PerfectTree

variable {a b c v w i j k n : ℕ}

/-- The node `a` lies on the path from the root to `v`. -/
def Above (a v : ℕ) : Prop := ∃ i, v / 2 ^ i = a

/-- The other child of the parent of `v`. -/
def mate (v : ℕ) : ℕ := if v % 2 = 0 then v + 1 else v - 1

theorem div_two_pow_succ : v / 2 ^ (i + 1) = v / 2 ^ i / 2 := by
  rw [pow_succ, Nat.div_div_eq_div_mul]

theorem div_two_pow_add : v / 2 ^ (i + j) = v / 2 ^ i / 2 ^ j := by
  rw [pow_add, Nat.div_div_eq_div_mul]

theorem div_two_pow_succ' : v / 2 ^ (i + 1) = v / 2 / 2 ^ i := by
  rw [pow_succ', Nat.div_div_eq_div_mul]

section Mate

theorem mate_half : mate v / 2 = v / 2 := by
  unfold mate
  split <;> omega

theorem mate_ne : mate v ≠ v := by
  unfold mate
  split <;> omega

theorem mate_pos (hv : 1 < v) : 1 < mate v := by
  unfold mate
  split <;> omega

theorem mate_mate : mate (mate v) = v := by
  unfold mate
  split_ifs <;> omega

theorem eq_or_mate (h : v / 2 = w / 2) : w = v ∨ w = mate v := by
  unfold mate
  split <;> omega

theorem mate_lt (h : v < 2 ^ (n + 1)) : mate v < 2 ^ (n + 1) := by
  rw [pow_succ] at h ⊢
  unfold mate
  split <;> omega

theorem mate_double_add_one : mate (2 * a + 1) = 2 * a := by
  unfold mate
  rw [if_neg (by omega)]
  omega

end Mate

namespace Above

@[refl] theorem refl (v : ℕ) : Above v v := ⟨0, by simp⟩

theorem half (v : ℕ) : Above (v / 2) v := ⟨1, by simp⟩

theorem trans (h : Above a b) (h' : Above b c) : Above a c := by
  obtain ⟨i, rfl⟩ := h
  obtain ⟨j, rfl⟩ := h'
  exact ⟨j + i, div_two_pow_add⟩

theorem le (h : Above a v) : a ≤ v := by
  obtain ⟨i, rfl⟩ := h
  exact Nat.div_le_self _ _

theorem antisymm (h : Above a v) (h' : Above v a) : a = v := le_antisymm h.le h'.le

theorem half_of_ne (h : Above a v) (hne : a ≠ v) : Above a (v / 2) := by
  obtain ⟨i, rfl⟩ := h
  cases i with
  | zero => exact absurd (by simp) hne
  | succ i => exact ⟨i, div_two_pow_succ'.symm⟩

theorem eq_or_half (h : Above a v) : a = v ∨ Above a (v / 2) := by
  by_cases hne : a = v
  · exact .inl hne
  · exact .inr (h.half_of_ne hne)

theorem total (h : Above a v) (h' : Above b v) : Above a b ∨ Above b a := by
  obtain ⟨i, rfl⟩ := h
  obtain ⟨j, rfl⟩ := h'
  rcases le_total i j with hij | hij
  · obtain ⟨k, rfl⟩ := Nat.exists_eq_add_of_le hij
    exact .inr ⟨k, div_two_pow_add.symm⟩
  · obtain ⟨k, rfl⟩ := Nat.exists_eq_add_of_le hij
    exact .inl ⟨k, div_two_pow_add.symm⟩

theorem child (h : Above a v) (hne : a ≠ v) : ∃ c, c / 2 = a ∧ Above c v := by
  obtain ⟨i, rfl⟩ := h
  cases i with
  | zero => exact absurd (by simp) hne
  | succ i => exact ⟨v / 2 ^ i, div_two_pow_succ.symm, i, rfl⟩

end Above

theorem Above.branch (h : Above a w) (hv : Above a v) (hw : ¬ Above w v) :
    ∃ c, Above c w ∧ Above a (c / 2) ∧ Above (c / 2) v ∧ ¬ Above c v := by
  induction w using Nat.strong_induction_on with
  | _ w ih =>
    have hne : a ≠ w := by
      rintro rfl
      exact hw hv
    have ha := h.half_of_ne hne
    by_cases hp : Above (w / 2) v
    · exact ⟨w, .refl w, ha, hp, hw⟩
    · have hlt : w / 2 < w := by
        have := h.le
        omega
      obtain ⟨c, hc, hrest⟩ := ih (w / 2) hlt ha hp
      exact ⟨c, hc.trans (.half w), hrest⟩

theorem Above.eq_mul_pow (hu : 0 < b) (h : Above a (b * 2 ^ i)) (hle : b ≤ a) :
    ∃ j ≤ i, a = b * 2 ^ j := by
  obtain ⟨k, rfl⟩ := h
  by_cases hk : k ≤ i
  · refine ⟨i - k, Nat.sub_le _ _, ?_⟩
    rw [Nat.div_eq_iff_eq_mul_left (Nat.two_pow_pos k) _, mul_assoc, ← pow_add,
      Nat.sub_add_cancel hk]
    exact Dvd.dvd.mul_left (pow_dvd_pow 2 hk) b
  · exfalso
    obtain ⟨n, rfl⟩ := Nat.exists_eq_add_of_lt (Nat.lt_of_not_le hk)
    rw [add_assoc, div_two_pow_add, Nat.mul_div_cancel _ (Nat.two_pow_pos i)] at hle
    have := Nat.div_lt_self hu (Nat.one_lt_two_pow (by omega : n + 1 ≠ 0))
    omega

theorem not_above_mate (hv : 1 < v) : ¬ Above v (mate v) := by
  intro h
  have hne : v ≠ mate v := mate_ne.symm
  have h' := (h.half_of_ne hne).le
  rw [mate_half] at h'
  omega

theorem mate_not_above (hv : 1 < v) (h : Above v w) : ¬ Above (mate v) w := by
  intro hm
  rcases h.total hm with ha | ha
  · exact not_above_mate hv ha
  · have := not_above_mate (mate_pos hv)
    rw [mate_mate] at this
    exact this ha

section Depth

theorem pow_le_div (h : 2 ^ (n + i) ≤ v) : 2 ^ n ≤ v / 2 ^ i := by
  rw [Nat.le_div_iff_mul_le (Nat.two_pow_pos i), ← pow_add]
  exact h

theorem div_lt_pow (h : v < 2 ^ (n + i)) : v / 2 ^ i < 2 ^ n := by
  rw [Nat.div_lt_iff_lt_mul (Nat.two_pow_pos i), ← pow_add]
  exact h

theorem div_pow_log (hv : v ≠ 0) : v / 2 ^ Nat.log 2 v = 1 := by
  have h₁ : 2 ^ (0 + Nat.log 2 v) ≤ v := by
    rw [Nat.zero_add]
    exact Nat.pow_log_le_self 2 hv
  have h₂ : v < 2 ^ (1 + Nat.log 2 v) := by
    rw [Nat.add_comm]
    exact Nat.lt_pow_succ_log_self Nat.one_lt_two v
  have := pow_le_div h₁
  have := div_lt_pow h₂
  simp at *
  omega

theorem one_above (hv : v ≠ 0) : Above 1 v := ⟨_, div_pow_log hv⟩

theorem log_div (h : v / 2 ^ i ≠ 0) : Nat.log 2 (v / 2 ^ i) + i = Nat.log 2 v := by
  have hi : 2 ^ i ≤ v := by
    by_contra hlt
    exact h (Nat.div_eq_of_lt (Nat.lt_of_not_le hlt))
  have hv : v ≠ 0 := by
    have := Nat.two_pow_pos i
    omega
  have hle : i ≤ Nat.log 2 v := (Nat.le_log_iff_pow_le Nat.one_lt_two hv).mpr hi
  rw [Nat.log_div_base_pow]
  omega

end Depth

/-! ## Blocks of leaves

In a tree with `L` rows below the root, leaf `x` has the number `2 ^ L + x`. -/

variable {L x y : ℕ}

/-- The number of leaves below a node. -/
def size (L v : ℕ) : ℕ := 2 ^ (L - Nat.log 2 v)

def offset (L v : ℕ) : ℕ := v * size L v - 2 ^ L

theorem log_le (hv : v < 2 ^ (L + 1)) : Nat.log 2 v ≤ L :=
  Nat.lt_succ_iff.mp (Nat.log_lt_of_lt_pow' (Nat.succ_ne_zero L) hv)

theorem pow_le_mul_size (h0 : v ≠ 0) (hv : v < 2 ^ (L + 1)) : 2 ^ L ≤ v * size L v := by
  have hl := log_le hv
  calc 2 ^ L = 2 ^ Nat.log 2 v * size L v := by rw [size, ← pow_add, Nat.add_sub_cancel' hl]
    _ ≤ v * size L v := Nat.mul_le_mul_right _ (Nat.pow_log_le_self 2 h0)

theorem add_offset (h0 : v ≠ 0) (hv : v < 2 ^ (L + 1)) : 2 ^ L + offset L v = v * size L v := by
  have := pow_le_mul_size h0 hv
  unfold offset
  omega

theorem offset_add_le (h0 : v ≠ 0) (hv : v < 2 ^ (L + 1)) : offset L v + size L v ≤ 2 ^ L := by
  have hl := log_le hv
  have h₁ : v + 1 ≤ 2 ^ (Nat.log 2 v + 1) := Nat.lt_pow_succ_log_self Nat.one_lt_two v
  have h₂ : (v + 1) * size L v ≤ 2 ^ (L + 1) := by
    calc (v + 1) * size L v ≤ 2 ^ (Nat.log 2 v + 1) * size L v := Nat.mul_le_mul_right _ h₁
      _ = 2 ^ (L + 1) := by rw [size, ← pow_add]; congr 1; omega
  have h₃ := add_offset h0 hv
  rw [add_mul, one_mul, ← h₃, pow_succ] at h₂
  omega

theorem size_pos : 0 < size L v := Nat.two_pow_pos _

theorem size_dvd_offset (h0 : v ≠ 0) (hv : v < 2 ^ (L + 1)) : size L v ∣ offset L v := by
  have hp : size L v ∣ 2 ^ L := pow_dvd_pow 2 (Nat.sub_le _ _)
  apply (Nat.dvd_add_right hp).mp
  rw [add_offset h0 hv]
  exact Nat.dvd_mul_left _ _

theorem mem_block_iff (h0 : v ≠ 0) (hv : v < 2 ^ (L + 1)) (hx : x < 2 ^ L) :
    (offset L v ≤ x ∧ x < offset L v + size L v) ↔ Above v (2 ^ L + x) := by
  have ha := add_offset h0 hv
  have hsize : size L v = 2 ^ (L - Nat.log 2 v) := rfl
  constructor
  · rintro ⟨h₁, h₂⟩
    refine ⟨L - Nat.log 2 v, ?_⟩
    rw [← hsize]
    apply Nat.div_eq_of_lt_le
    · omega
    · rw [add_mul, one_mul]
      omega
  · rintro ⟨i, hi⟩
    have hi0 : (2 ^ L + x) / 2 ^ i ≠ 0 := hi ▸ h0
    have hlog : Nat.log 2 (2 ^ L + x) = L := by
      apply Nat.log_eq_of_pow_le_of_lt_pow
      · omega
      · rw [pow_succ]
        omega
    have hd := log_div hi0
    rw [hi, hlog] at hd
    have hi' : i = L - Nat.log 2 v := by omega
    rw [hi', ← hsize] at hi
    have h₁ := Nat.div_mul_le_self (2 ^ L + x) (size L v)
    rw [hi] at h₁
    have h₂ : 2 ^ L + x < (v + 1) * size L v := by
      rw [← Nat.div_lt_iff_lt_mul size_pos, hi]
      exact Nat.lt_succ_self v
    rw [add_mul, one_mul] at h₂
    omega

end Library.PerfectTree
