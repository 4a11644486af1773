import UCore.BuddyTree.Safety

/-! # Where a request is served

A request is served below the first node without use that the search reaches
through split nodes, at its leftmost descendant, provided that the nodes that it
splits have unused children.
-/

namespace UCore.BuddyTree

open Library Library.PerfectTree

variable {t t' : ℤ → Node} {m v w a b i j k n u B : ℕ}

/-- The first node without use at most `n` rows below `m`, below split nodes. -/
def place : ℕ → (ℤ → Node) → ℕ → Option ℕ
  | 0, t, m => if node t m = .unused then some m else none
  | n + 1, t, m =>
    if node t m = .unused then some m
    else if node t m = .split then
      (place n t (2 * m)).or (place n t (2 * m + 1))
    else none

/-- On the way from `u` down to the left, the nodes before `B` have unused children. -/
def Clean (B : ℕ) (t : ℤ → Node) (u : ℕ) : Prop :=
  ∀ j, u * 2 ^ j < B →
    node t (2 * (u * 2 ^ j)) = .unused ∧ node t (2 * (u * 2 ^ j) + 1) = .unused

/-- The nodes from `u` on down to the left become split, `j` of them. -/
def openDown (t : ℤ → Node) (u : ℕ) : ℕ → ℤ → Node
  | 0 => t
  | j + 1 => openDown (Function.update t ((u : ℤ) - 1) .split) (2 * u) j

theorem node_openDown (hu : 0 < u) : ∀ x,
    (∃ i < j, x = u * 2 ^ i) ∧ node (openDown t u j) x = .split ∨
      (∀ i < j, x ≠ u * 2 ^ i) ∧ node (openDown t u j) x = node t x := by
  induction j generalizing t u with
  | zero => exact fun x => .inr ⟨by omega, rfl⟩
  | succ j ih =>
    intro x
    rcases ih (t := Function.update t ((u : ℤ) - 1) .split) (u := 2 * u) (by omega) x with
      ⟨⟨i, hi, rfl⟩, hx⟩ | ⟨hne, hx⟩
    · exact .inl ⟨⟨i + 1, by omega, by ring⟩, hx⟩
    · by_cases hxu : x = u
      · subst hxu
        exact .inl ⟨⟨0, by omega, by simp⟩, hx.trans node_update_self⟩
      · refine .inr ⟨?_, hx.trans (node_update_of_ne hxu)⟩
        intro i hi
        cases i with
        | zero => simpa using hxu
        | succ i =>
          have := hne i (by omega)
          rwa [mul_assoc, mul_left_comm, ← pow_succ'] at this

theorem place_above (h : place n t m = some u) :
    Above m u ∧ node t u = .unused ∧ ∀ a, Above m a → a ≠ u → Above a u → node t a = .split := by
  induction n generalizing m with
  | zero =>
    simp only [place] at h
    split at h
    · obtain rfl := Option.some.inj h
      refine ⟨.refl m, ‹_›, ?_⟩
      intro a ha hne ha'
      exact absurd (ha.antisymm ha').symm hne
    · exact absurd h.symm (Option.some_ne_none u)
  | succ n ih =>
    simp only [place] at h
    split_ifs at h with hu hs
    · obtain rfl := Option.some.inj h
      refine ⟨.refl m, hu, ?_⟩
      intro a ha hne ha'
      exact absurd (ha.antisymm ha').symm hne
    · have key : ∀ c, c / 2 = m → place n t c = some u →
          Above m u ∧ node t u = .unused ∧
            ∀ a, Above m a → a ≠ u → Above a u → node t a = .split := by
        intro c hc hp
        obtain ⟨h₁, h₂, h₃⟩ := ih hp
        have hmc : Above m c := hc ▸ Above.half c
        refine ⟨hmc.trans h₁, h₂, ?_⟩
        intro a hma hne hau
        rcases h₁.total hau with hca | hac
        · exact h₃ a hca hne hau
        · rcases hac.eq_or_half with rfl | hac
          · exact h₃ a (.refl a) hne hau
          · rw [hc] at hac
            rwa [hac.antisymm hma]
      rcases Option.or_eq_some_iff.mp h with h | ⟨-, h⟩
      · exact key (2 * m) (by omega) h
      · exact key (2 * m + 1) (by omega) h

theorem place_row (h : place n t m = some u) : ∃ i ≤ n, u / 2 ^ i = m := by
  induction n generalizing m with
  | zero =>
    simp only [place] at h
    split at h
    · obtain rfl := Option.some.inj h
      exact ⟨0, le_rfl, by simp⟩
    · exact absurd h.symm (Option.some_ne_none u)
  | succ n ih =>
    have key : ∀ c, c / 2 = m → place n t c = some u → ∃ i ≤ n + 1, u / 2 ^ i = m := by
      intro c hc hp
      obtain ⟨i, hi, he⟩ := ih hp
      exact ⟨i + 1, by omega, by rw [div_two_pow_succ, he, hc]⟩
    simp only [place] at h
    split_ifs at h with hu hs
    · obtain rfl := Option.some.inj h
      exact ⟨0, Nat.zero_le _, by simp⟩
    · rcases Option.or_eq_some_iff.mp h with h | ⟨-, h⟩
      · exact key (2 * m) (by omega) h
      · exact key (2 * m + 1) (by omega) h

theorem update_split (h : node t m = .split) : Function.update t ((m : ℤ) - 1) .split = t := by
  have h' : t ((m : ℤ) - 1) = .split := h
  rw [← h']
  exact Function.update_eq_self _ _

theorem find_of_place_none (h : place n t m = none) : find n t m = (none, t) := by
  induction n generalizing m with
  | zero =>
    simp only [place] at h
    split at h
    · exact absurd h (Option.some_ne_none m)
    · simp only [find, if_neg ‹_›]
  | succ n ih =>
    simp only [place] at h
    split_ifs at h with hu hs
    · obtain ⟨h₁, h₂⟩ := Option.or_eq_none_iff.mp h
      simp only [find, if_pos (Or.inr hs : node t m = .unused ∨ _), update_split hs, ih h₁, ih h₂]
      rfl
    · have hx : ¬ (node t m = .unused ∨ node t m = .split) := by
        rw [not_or]
        exact ⟨hu, hs⟩
      simp only [find, if_neg hx]

theorem find_of_clean (hu0 : 0 < u) (hu : node t u = .unused) (hB : u * 2 ^ n < 2 * B)
    (hc : Clean B t u) : find n t u = (some (u * 2 ^ n), openDown t u n) := by
  induction n generalizing t u with
  | zero => simp [find, hu, openDown]
  | succ n ih =>
    have hne : 2 * u ≠ u := by omega
    have hB' : 2 * u * 2 ^ n < 2 * B := by
      rwa [mul_comm 2 u, mul_assoc, ← pow_succ']
    have hlt : u * 2 ^ 0 < B := by
      have h1 : 2 * u * 1 ≤ 2 * u * 2 ^ n := Nat.mul_le_mul_left _ Nat.one_le_two_pow
      omega
    have hu' : node (Function.update t ((u : ℤ) - 1) .split) (2 * u) = .unused := by
      rw [node_update_of_ne hne]
      simpa using (hc 0 hlt).1
    have hc' : Clean B (Function.update t ((u : ℤ) - 1) .split) (2 * u) := by
      intro j hj
      have he : 2 * u * 2 ^ j = u * 2 ^ (j + 1) := by ring
      have hpos : u ≤ u * 2 ^ (j + 1) := Nat.le_mul_of_pos_right u (Nat.two_pow_pos _)
      rw [he] at hj ⊢
      rw [node_update_of_ne (by omega), node_update_of_ne (by omega)]
      exact hc (j + 1) hj
    have hv : 2 * u * 2 ^ n = u * 2 ^ (n + 1) := by ring
    simp only [find, hu, true_or, if_true, ih (by omega) hu' hB' hc', Option.isSome_some, openDown,
      hv]

theorem find_of_place (hm : 0 < m) (h : place n t m = some u) (hB : (m + 1) * 2 ^ n ≤ 2 * B)
    (hc : Clean B t u) :
    ∃ j, u * 2 ^ j / 2 ^ n = m ∧ find n t m = (some (u * 2 ^ j), openDown t u j) ∧
      u * 2 ^ j < 2 * B := by
  induction n generalizing m with
  | zero =>
    simp only [place] at h
    split at h
    · obtain rfl := Option.some.inj h
      rename_i hu
      exact ⟨0, by simp, by simp [find, hu, openDown], by omega⟩
    · exact absurd h.symm (Option.some_ne_none u)
  | succ n ih =>
    simp only [place] at h
    split_ifs at h with hu hs
    · obtain rfl := Option.some.inj h
      have hlt : m * 2 ^ (n + 1) < 2 * B := by
        have := Nat.two_pow_pos (n + 1)
        rw [add_mul, one_mul] at hB
        omega
      exact ⟨n + 1, Nat.mul_div_cancel _ (Nat.two_pow_pos _), find_of_clean hm hu hlt hc, hlt⟩
    · have hx : node t m = .unused ∨ node t m = .split := .inr hs
      have hB₂ : (2 * m + 1 + 1) * 2 ^ n ≤ 2 * B := by
        have e : (m + 1) * 2 ^ (n + 1) = (2 * m + 1 + 1) * 2 ^ n := by ring
        exact e ▸ hB
      rcases Option.or_eq_some_iff.mp h with hl | ⟨hl, hr⟩
      · have hB₁ : (2 * m + 1) * 2 ^ n ≤ 2 * B :=
          (Nat.mul_le_mul_right _ (Nat.le_succ _)).trans hB₂
        obtain ⟨j, hj, hf, hlt⟩ := ih (by omega) hl hB₁
        refine ⟨j, by rw [div_two_pow_succ, hj]; omega, ?_, hlt⟩
        simp only [find, if_pos hx, update_split hs, hf, Option.isSome_some, if_true]
      · obtain ⟨j, hj, hf, hlt⟩ := ih (by omega) hr hB₂
        refine ⟨j, by rw [div_two_pow_succ, hj]; omega, ?_, hlt⟩
        simp only [find, if_pos hx, update_split hs, find_of_place_none hl, Option.isSome_none,
          Bool.false_eq_true, if_false, hf]

theorem node_find_of_not_above (h : ¬ Above m v) : node (find n t m).2 v = node t v := by
  induction n generalizing t m with
  | zero => rfl
  | succ n ih =>
    have hne : v ≠ m := by
      rintro rfl
      exact h (.refl v)
    have hl : ¬ Above (2 * m) v := fun ha => h (.trans ⟨1, by omega⟩ ha)
    have hr : ¬ Above (2 * m + 1) v := fun ha => h (.trans ⟨1, by omega⟩ ha)
    simp only [find]
    split_ifs
    · rw [ih hl, node_update_of_ne hne]
    · rw [ih hr, ih hl, node_update_of_ne hne]
    · rfl

/-- A path to an unused node that is neither in use nor full is enough for the search. -/
theorem find_ne_none (hm : 0 < m) (hw : w / 2 ^ n = m) (hu : node t w = .unused)
    (hp : ∀ i, 0 < i → i ≤ n → node t (w / 2 ^ i) = .unused ∨ node t (w / 2 ^ i) = .split) :
    (find n t m).1 ≠ none := by
  induction n generalizing t m with
  | zero =>
    obtain rfl : w = m := by simpa using hw
    simp [find, hu]
  | succ n ih =>
    have hx := hp (n + 1) (by omega) le_rfl
    rw [hw] at hx
    have hcm : w / 2 ^ n / 2 = m := by rw [← div_two_pow_succ, hw]
    have hbelow : ∀ i, i ≤ n → w / 2 ^ i ≠ m := by
      intro i hi he
      have h₁ : w / 2 ^ n ≤ w / 2 ^ i := Nat.div_le_div_left (Nat.pow_le_pow_right Nat.two_pos hi)
        (Nat.two_pow_pos i)
      omega
    -- the path below `m` as the search of either child meets it
    have hpath : ∀ t', (∀ i, i ≤ n → node t' (w / 2 ^ i) = node t (w / 2 ^ i)) →
        (find n t' (w / 2 ^ n)).1 ≠ none := by
      intro t' ht
      apply ih (by omega) rfl
      · have := ht 0 (by omega)
        rw [pow_zero, Nat.div_one] at this
        rw [this, hu]
      · intro i hi hin
        rw [ht i hin]
        exact hp i hi (by omega)
    simp only [find, if_pos hx]
    split_ifs with hs
    · intro hn
      rw [hn] at hs
      exact Bool.noConfusion hs
    · have hnone : (find n (Function.update t ((m : ℤ) - 1) .split) (2 * m)).1 = none := by
        simpa using hs
      rcases (by omega : w / 2 ^ n = 2 * m ∨ w / 2 ^ n = 2 * m + 1) with hc | hc
      · apply absurd hnone
        rw [← hc]
        exact hpath _ fun i hi => node_update_of_ne (hbelow i hi)
      · rw [← hc]
        apply hpath
        intro i hi
        have hnot : ¬ Above (2 * m) (w / 2 ^ i) := by
          rintro ⟨e, he⟩
          have hd : w / 2 ^ (i + e) = 2 * m := by rw [div_two_pow_add, he]
          have h₀ : w / 2 ^ n ≠ 0 := by omega
          have h₁ := log_div h₀
          have h₂ := log_div (hd ▸ (by omega : 2 * m ≠ 0) : w / 2 ^ (i + e) ≠ 0)
          have hlog : Nat.log 2 (2 * m) = Nat.log 2 (2 * m + 1) := by
            rw [← Nat.log_div_mul_self 2 (2 * m + 1)]
            congr 1
            omega
          rw [hc] at h₁
          rw [hd] at h₂
          have hen : i + e = n := by omega
          rw [hen, hc] at hd
          omega
        rw [node_find_of_not_above hnot, node_update_of_ne (hbelow i hi)]

end UCore.BuddyTree
