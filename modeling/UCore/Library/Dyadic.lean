import UCore.Library.PerfectTree

/-! # Families of aligned blocks

Block `q` of order `i` consists of the numbers `x` with `x / 2 ^ i = q`. A family
of disjoint blocks of orders up to `M` without mates below the order `M` is
determined by the numbers that it covers: its blocks are the largest ones.
-/

namespace Library.Dyadic

open PerfectTree

variable {M i j p q r x : ℕ} {D D' : ℕ → Prop} {F F' : ℕ → ℕ → Prop}

/-- The family `F` of blocks covers `D`, and no two of its blocks are to be merged. -/
structure Reduced (M : ℕ) (D : ℕ → Prop) (F : ℕ → ℕ → Prop) : Prop where
  order : ∀ i q, F i q → i ≤ M
  cover : ∀ x, D x ↔ ∃ i, F i (x / 2 ^ i)
  unique : ∀ x i j, F i (x / 2 ^ i) → F j (x / 2 ^ j) → i = j
  apart : ∀ i q, i < M → F i q → ¬ F i (mate q)

/-- All of the block lies in `D`. -/
def Full (D : ℕ → Prop) (i q : ℕ) : Prop := ∀ x, x / 2 ^ i = q → D x

theorem mul_div_pow : q * 2 ^ i / 2 ^ i = q := Nat.mul_div_cancel _ (Nat.two_pow_pos i)

theorem div_pow_congr {y : ℕ} (h : x / 2 ^ i = y / 2 ^ i) (hij : i ≤ j) :
    x / 2 ^ j = y / 2 ^ j := by
  obtain ⟨k, rfl⟩ := Nat.exists_eq_add_of_le hij
  rw [div_two_pow_add, h, div_two_pow_add]

theorem div_pow_eq_iff (hp : 2 ^ i ∣ p) : x / 2 ^ i = p / 2 ^ i ↔ p ≤ x ∧ x < p + 2 ^ i := by
  obtain ⟨q, rfl⟩ := hp
  have hpos := Nat.two_pow_pos i
  rw [Nat.mul_div_cancel_left q hpos]
  constructor
  · intro hx
    have h₁ := Nat.mul_div_le x (2 ^ i)
    have h₂ := Nat.lt_mul_div_succ x hpos
    rw [hx] at h₁ h₂
    rw [Nat.mul_add, Nat.mul_one] at h₂
    exact ⟨h₁, h₂⟩
  · rintro ⟨h₁, h₂⟩
    apply Nat.div_eq_of_lt_le
    · rwa [mul_comm]
    · rwa [add_mul, one_mul, mul_comm]

theorem div_pow_succ_iff : x / 2 ^ (i + 1) = q ↔ x / 2 ^ i = 2 * q ∨ x / 2 ^ i = 2 * q + 1 := by
  rw [div_two_pow_succ]
  omega

theorem mate_eq_xor : mate q = q ^^^ 1 := by
  have hm : (q ^^^ 1) % 2 = 1 ↔ ¬ (q % 2 = 1 ↔ 1 % 2 = 1) := Nat.xor_mod_two_eq_one
  have hd : (q ^^^ 1) / 2 = q / 2 := by
    rw [Nat.xor_div_two]
    exact Nat.xor_zero _
  unfold mate
  split <;> omega

theorem mate_mul_pow : mate q * 2 ^ i = (q * 2 ^ i) ^^^ 2 ^ i := by
  rw [mate_eq_xor, ← Nat.shiftLeft_eq, Nat.shiftLeft_xor_distrib, Nat.shiftLeft_eq,
    Nat.shiftLeft_eq, one_mul]

namespace Reduced

variable (h : Reduced M D F)

include h

theorem full (hF : F i q) : Full D i q := by
  rintro x rfl
  exact (h.cover x).mpr ⟨i, hF⟩

theorem not_covered (hj : j ≤ M) : ¬ ∀ x, x / 2 ^ j = q → ∃ i < j, F i (x / 2 ^ i) := by
  intro hc
  have hex : ∃ i, ∃ x, x / 2 ^ j = q ∧ i < j ∧ F i (x / 2 ^ i) := by
    obtain ⟨i, hi, hF⟩ := hc (q * 2 ^ j) mul_div_pow
    exact ⟨i, _, mul_div_pow, hi, hF⟩
  classical
  obtain ⟨x, hx, hij, hF⟩ := Nat.find_spec hex
  set i := Nat.find hex with hi
  -- the mate of a block of the smallest order is covered by a block that is not smaller
  have hy : mate (x / 2 ^ i) * 2 ^ i / 2 ^ (i + 1) = x / 2 ^ (i + 1) := by
    rw [div_two_pow_succ, mul_div_pow, mate_half, div_two_pow_succ]
  have hyj := div_pow_congr hy (by omega : i + 1 ≤ j)
  obtain ⟨k, hkj, hk⟩ := hc _ (hyj.trans hx)
  have hik : i ≤ k := Nat.find_min' hex ⟨_, hyj.trans hx, hkj, hk⟩
  rcases hik.eq_or_lt with he | hlt
  · rw [← he, mul_div_pow] at hk
    exact h.apart i _ (by omega) hF hk
  · rw [div_pow_congr hy hlt] at hk
    exact hlt.ne (h.unique x i k hF hk)

theorem not_full_succ (hF : F i q) (hi : i < M) : ¬ Full D (i + 1) (q / 2) := by
  intro hfull
  apply h.not_covered (j := i) (q := mate q) hi.le
  intro x hx
  have hparent : x / 2 ^ (i + 1) = q / 2 := by rw [div_two_pow_succ, hx, mate_half]
  obtain ⟨k, hk⟩ := (h.cover x).mp (hfull x hparent)
  refine ⟨k, ?_, hk⟩
  by_contra hle
  rcases (Nat.le_of_not_lt hle).eq_or_lt with rfl | hlt
  · rw [hx] at hk
    exact h.apart i q hi hF hk
  · have hsame : x / 2 ^ (i + 1) = q * 2 ^ i / 2 ^ (i + 1) := by
      rw [hparent, div_two_pow_succ, mul_div_pow]
    rw [div_pow_congr hsame hlt] at hk
    exact hlt.ne (h.unique (q * 2 ^ i) i k (by rwa [mul_div_pow]) hk)

theorem mem_iff : F i q ↔ i ≤ M ∧ Full D i q ∧ (i < M → ¬ Full D (i + 1) (q / 2)) := by
  constructor
  · intro hF
    exact ⟨h.order i q hF, h.full hF, h.not_full_succ hF⟩
  · rintro ⟨hi, hfull, hmax⟩
    obtain ⟨j, hj⟩ := (h.cover (q * 2 ^ i)).mp (hfull _ mul_div_pow)
    have hin : ∀ y k, y / 2 ^ k = q * 2 ^ i / 2 ^ k → k ≤ j → D y := by
      intro y k hy hk
      exact (h.cover y).mpr ⟨j, div_pow_congr hy hk ▸ hj⟩
    rcases Nat.lt_trichotomy j i with hlt | rfl | hgt
    · exfalso
      apply h.not_full_succ hj (by omega)
      intro y hy
      apply hfull
      rw [← div_two_pow_succ] at hy
      rw [div_pow_congr hy hlt, mul_div_pow]
    · rwa [mul_div_pow] at hj
    · exfalso
      apply hmax (hgt.trans_le (h.order j _ hj))
      intro y hy
      apply hin y (i + 1) _ hgt
      rw [hy, div_two_pow_succ, mul_div_pow]

theorem eq_of_cover (h' : Reduced M D F') : F i q ↔ F' i q := by rw [h.mem_iff, h'.mem_iff]

theorem congr (hD : ∀ x, D' x ↔ D x) (hF : ∀ i q, F' i q ↔ F i q) : Reduced M D' F' := by
  have hD' : D' = D := funext fun x => propext (hD x)
  have hF' : F' = F := funext fun i => funext fun q => propext (hF i q)
  rw [hD', hF']
  exact h

theorem remove (hF : F i q) :
    Reduced M (fun x => D x ∧ x / 2 ^ i ≠ q) fun j r => F j r ∧ ¬ (j = i ∧ r = q) := by
  constructor
  · exact fun j r hj => h.order j r hj.1
  · intro x
    rw [h.cover x]
    constructor
    · rintro ⟨⟨j, hj⟩, hne⟩
      refine ⟨j, hj, ?_⟩
      rintro ⟨rfl, he⟩
      exact hne he
    · rintro ⟨j, hj, hne⟩
      refine ⟨⟨j, hj⟩, ?_⟩
      rintro rfl
      obtain rfl := h.unique x i j hF hj
      exact hne ⟨rfl, rfl⟩
  · exact fun x j k hj hk => h.unique x j k hj.1 hk.1
  · exact fun j r hj hr hm => h.apart j r hj hr.1 hm.1

theorem insert (hi : i ≤ M) (hD : ∀ x, x / 2 ^ i = q → ¬ D x) (hm : i < M → ¬ F i (mate q)) :
    Reduced M (fun x => D x ∨ x / 2 ^ i = q) fun j r => F j r ∨ (j = i ∧ r = q) := by
  have hout : ∀ x j, F j (x / 2 ^ j) → x / 2 ^ i ≠ q := by
    intro x j hj hx
    exact hD x hx ((h.cover x).mpr ⟨j, hj⟩)
  constructor
  · rintro j r (hj | ⟨rfl, -⟩)
    · exact h.order j r hj
    · exact hi
  · intro x
    rw [h.cover x]
    constructor
    · rintro (⟨j, hj⟩ | hx)
      · exact ⟨j, .inl hj⟩
      · exact ⟨i, .inr ⟨rfl, hx⟩⟩
    · rintro ⟨j, hj | ⟨rfl, hx⟩⟩
      · exact .inl ⟨j, hj⟩
      · exact .inr hx
  · rintro x j k (hj | ⟨rfl, hj⟩) (hk | ⟨rfl, hk⟩)
    · exact h.unique x j k hj hk
    · exact absurd hk (hout x j hj)
    · exact absurd hj (hout x k hk)
    · rfl
  · rintro j r hj (hr | ⟨rfl, rfl⟩) (hr' | ⟨he, hr'⟩)
    · exact h.apart j r hj hr hr'
    · subst he
      obtain rfl : r = mate q := by rw [← hr', mate_mate]
      exact hm hj hr
    · exact hm hj hr'
    · exact mate_ne hr'

end Reduced

end Library.Dyadic
