import Mathlib.Algebra.Group.Nat.Defs
import Mathlib.Algebra.Order.Ring.Nat
import Mathlib.Data.Nat.Log
import Mathlib.Data.Nat.Notation
import Mathlib.Tactic.Common
import Mathlib.Tactic.Ring

/-! # Rounding up to a power of two

Shifting a number to the right by doubling distances and taking the union fills
all bits below its highest one.
-/

namespace Library

variable {n x y : ℕ}

/-- Bit `i` of `y` tells whether `x` has a bit among the `n` bits from `i` on. -/
def Smeared (n x y : ℕ) : Prop :=
  ∀ i, y.testBit i = true ↔ ∃ j < n, x.testBit (i + j) = true

namespace Smeared

theorem refl (x : ℕ) : Smeared 1 x x := by
  intro i
  constructor
  · exact fun h => ⟨0, Nat.one_pos, h⟩
  · rintro ⟨j, hj, h⟩
    obtain rfl : j = 0 := by omega
    exact h

theorem double (h : Smeared n x y) : Smeared (n + n) x (y ||| y >>> n) := by
  intro i
  rw [Nat.testBit_or, Nat.testBit_shiftRight, Bool.or_eq_true, h, h]
  constructor
  · rintro (⟨j, hj, hx⟩ | ⟨j, hj, hx⟩)
    · exact ⟨j, by omega, hx⟩
    · exact ⟨n + j, by omega, by rwa [show i + (n + j) = n + i + j by omega]⟩
  · rintro ⟨j, hj, hx⟩
    by_cases hjn : j < n
    · exact .inl ⟨j, hjn, hx⟩
    · exact .inr ⟨j - n, by omega, by rwa [show n + i + (j - n) = i + j by omega]⟩

theorem add_one (h : Smeared n x y) (hx : x < 2 ^ n) (h0 : x ≠ 0) :
    y + 1 = 2 ^ (x.log2 + 1) := by
  have hy : y = 2 ^ (x.log2 + 1) - 1 := by
    apply Nat.eq_of_testBit_eq
    intro i
    rw [Bool.eq_iff_iff, h, Nat.testBit_two_pow_sub_one, decide_eq_true_eq]
    constructor
    · rintro ⟨j, -, hj⟩
      by_contra hlt
      have hlog : x < 2 ^ (i + j) := by
        rw [← Nat.log2_lt h0]
        omega
      rw [Nat.testBit_lt_two_pow hlog] at hj
      exact Bool.false_ne_true hj
    · intro hi
      have hlog : x.log2 < n := (Nat.log2_lt h0).mpr hx
      refine ⟨x.log2 - i, by omega, ?_⟩
      rw [Nat.add_sub_cancel' (by omega)]
      exact Nat.testBit_log2 h0
  have := Nat.two_pow_pos (x.log2 + 1)
  omega

end Smeared

theorem clog_two_eq (h0 : x ≠ 0) (hp : ¬ x.isPowerOfTwo) : Nat.clog 2 x = x.log2 + 1 := by
  have hlo : 2 ^ x.log2 ≤ x := Nat.log2_self_le h0
  have hne : 2 ^ x.log2 ≠ x := fun he => hp ⟨x.log2, he.symm⟩
  have hhi : x < 2 ^ (x.log2 + 1) := Nat.lt_log2_self
  apply le_antisymm
  · exact Nat.clog_le_of_le_pow hhi.le
  · rw [Nat.succ_le_iff, Nat.lt_clog_iff_pow_lt Nat.one_lt_two]
    omega

/-! ## Replacing one digit of a number -/

variable {β q c r w b j k : ℕ}

theorem digit_low (hj : j < k) : ((q * β + c) * β ^ k + r) / β ^ j % β = r / β ^ j % β := by
  rcases Nat.eq_zero_or_pos β with rfl | hβ
  · simp [Nat.zero_pow (by omega : 0 < k)]
  obtain ⟨i, rfl⟩ : ∃ i, k = j + (i + 1) := ⟨k - j - 1, by omega⟩
  have h : (q * β + c) * β ^ (j + (i + 1)) + r =
      β ^ j * ((q * β + c) * β ^ i * β) + r := by ring
  rw [h, Nat.mul_add_div (Nat.pow_pos hβ), Nat.add_mod, Nat.mul_mod_left, Nat.zero_add,
    Nat.mod_mod]

theorem digit_at (hr : r < β ^ k) : ((q * β + c) * β ^ k + r) / β ^ k = q * β + c := by
  rw [Nat.mul_comm, Nat.mul_add_div (by omega), Nat.div_eq_of_lt hr, Nat.add_zero]

theorem digit_high (hc : c < β) (hr : r < β ^ k) (hj : k < j) :
    ((q * β + c) * β ^ k + r) / β ^ j = q / β ^ (j - k - 1) := by
  have h : β ^ j = β ^ k * (β * β ^ (j - k - 1)) := by
    rw [← Nat.pow_succ', ← Nat.pow_add]
    congr 1
    omega
  rw [h, ← Nat.div_div_eq_div_mul, digit_at hr, ← Nat.div_div_eq_div_mul, Nat.mul_comm q,
    Nat.mul_add_div (by omega), Nat.div_eq_of_lt hc, Nat.add_zero]

theorem digit_set (hb : b < β) : (w - w / β ^ k % β * β ^ k + b * β ^ k) / β ^ j % β =
    if j = k then b else w / β ^ j % β := by
  have hβ : 0 < β := by omega
  have hP : 0 < β ^ k := Nat.pow_pos hβ
  have hr : w % β ^ k < β ^ k := Nat.mod_lt _ hP
  have hd : w / β ^ k % β < β := Nat.mod_lt _ hβ
  have hw : w = (w / β ^ k / β * β + w / β ^ k % β) * β ^ k + w % β ^ k := by
    rw [Nat.div_add_mod', Nat.div_add_mod']
  have hset : ∀ q d r p, w = (q * β + d) * p + r → w - d * p + b * p = (q * β + b) * p + r := by
    intro q d r p h
    rw [h, Nat.add_mul, Nat.add_mul]
    omega
  rw [hset _ _ _ _ hw]
  split
  · rename_i h
    rw [h, digit_at hr, Nat.add_comm, Nat.add_mul_mod_self_right, Nat.mod_eq_of_lt hb]
  · rename_i h
    conv_rhs => rw [hw]
    rcases Nat.lt_or_gt_of_ne h with hj | hj
    · rw [digit_low hj, digit_low hj]
    · rw [digit_high hb hr hj, digit_high hd hr hj]

/-! ## Bits in a row of words

A row of words of `w` bits as a row of bits: flipping and setting one of them through a mask, and
the first one that is set.
-/

variable {l : List (BitVec w)} {ix offset i : ℕ}

/-- Bit `i` of the words in a row. -/
def wordBit (l : List (BitVec w)) (i : ℕ) : Bool := (l.getD (i / w) 0).getLsbD (i % w)

theorem wordBit_of_length_le (h : l.length * w ≤ i) : wordBit l i = false := by
  unfold wordBit
  rcases Nat.eq_zero_or_pos w with rfl | hw
  · exact BitVec.getLsbD_of_ge _ _ (Nat.zero_le _)
  · have hi : l.length ≤ i / w := (Nat.le_div_iff_mul_le hw).mpr h
    rw [List.getD_eq_getElem?_getD, List.getElem?_eq_none hi]
    exact BitVec.getLsbD_zero

theorem wordBit_replicate (h : i < n * w) :
    wordBit (List.replicate n (BitVec.allOnes w)) i = true := by
  have hw : 0 < w := by
    rcases Nat.eq_zero_or_pos w with rfl | hw
    · omega
    · exact hw
  have hi : i / w < n := (Nat.div_lt_iff_lt_mul hw).mpr h
  unfold wordBit
  rw [List.getD_eq_getElem?_getD, List.getElem?_replicate_of_lt hi, Option.getD_some,
    BitVec.getLsbD_allOnes]
  exact decide_eq_true (Nat.mod_lt _ hw)

theorem index_eq_iff (h : offset < w) : i = ix * w + offset ↔ i / w = ix ∧ i % w = offset := by
  constructor
  · rintro rfl
    rw [Nat.mul_comm, Nat.mul_add_div (by omega), Nat.mul_add_mod, Nat.div_eq_of_lt h,
      Nat.mod_eq_of_lt h]
    exact ⟨Nat.add_zero _, rfl⟩
  · rintro ⟨rfl, rfl⟩
    rw [Nat.mul_comm, Nat.div_add_mod]

theorem getLsbD_mask (hi : i < w) : (1#w <<< offset).getLsbD i = decide (i = offset) := by
  rw [← BitVec.twoPow_eq, BitVec.getLsbD_twoPow]
  by_cases h : i = offset
  · subst h
    simp [hi]
  · simp [h, Ne.symm h]

theorem getD_set_self {x : BitVec w} (h : ix < l.length) : (l.set ix x).getD ix 0 = x := by
  rw [List.getD_eq_getElem?_getD, List.getElem?_set_self h]
  rfl

theorem getD_set_ne {x : BitVec w} {j : ℕ} (h : j ≠ ix) : (l.set ix x).getD j 0 = l.getD j 0 := by
  rw [List.getD_eq_getElem?_getD, List.getElem?_set_ne h.symm, List.getD_eq_getElem?_getD]

theorem wordBit_xor (hix : ix < l.length) (ho : offset < w) :
    wordBit (l.set ix (l.getD ix 0 ^^^ 1#w <<< offset)) i =
      (wordBit l i ^^ decide (i = ix * w + offset)) := by
  have hlt : i % w < w := Nat.mod_lt _ (by omega)
  unfold wordBit
  by_cases h : i / w = ix
  · rw [h, getD_set_self hix, BitVec.getLsbD_xor, getLsbD_mask hlt]
    simp only [index_eq_iff ho, h, true_and]
  · rw [getD_set_ne h]
    simp only [index_eq_iff ho, h, false_and, decide_false, Bool.xor_false]

theorem wordBit_or (hix : ix < l.length) (ho : offset < w) :
    wordBit (l.set ix (l.getD ix 0 ||| 1#w <<< offset)) i =
      (wordBit l i || decide (i = ix * w + offset)) := by
  have hlt : i % w < w := Nat.mod_lt _ (by omega)
  unfold wordBit
  by_cases h : i / w = ix
  · rw [h, getD_set_self hix, BitVec.getLsbD_or, getLsbD_mask hlt]
    simp only [index_eq_iff ho, h, true_and]
  · rw [getD_set_ne h]
    simp only [index_eq_iff ho, h, false_and, decide_false, Bool.or_false]

theorem and_mask_ne_zero {x : BitVec w} (ho : offset < w) :
    x &&& 1#w <<< offset ≠ 0 ↔ x.getLsbD offset = true := by
  constructor
  · intro h
    by_contra hx
    refine h (BitVec.eq_of_getLsbD_eq fun i hi => ?_)
    rw [BitVec.getLsbD_and, getLsbD_mask hi, BitVec.ofNat_eq_ofNat, BitVec.getLsbD_zero]
    by_cases hio : i = offset
    · subst hio
      simp [hx]
    · simp [hio]
  · intro h he
    have := congrArg (BitVec.getLsbD · offset) he
    simp only [BitVec.getLsbD_and, getLsbD_mask ho, h, decide_true, Bool.and_self,
      BitVec.ofNat_eq_ofNat, BitVec.getLsbD_zero, Bool.true_eq_false] at this

theorem ne_zero_iff {x : BitVec w} : x ≠ 0 ↔ ∃ i < w, x.getLsbD i = true := by
  constructor
  · intro h
    by_contra hno
    refine h (BitVec.eq_of_getLsbD_eq fun i hi => ?_)
    rw [BitVec.ofNat_eq_ofNat, BitVec.getLsbD_zero]
    by_contra hx
    exact hno ⟨i, hi, by simpa using hx⟩
  · rintro ⟨i, -, hx⟩ rfl
    simp at hx

end Library
