import UCore.BuddyTree.Model
import UCore.Library.PerfectTree

/-! # The loops of the buddy tree

Node `m` of the perfect tree is entry `m - 1` of the array. Each loop is a walk
along a path of the tree, and its result is stated by the nodes of that path.
-/

namespace UCore.BuddyTree

open Library Library.PerfectTree

variable {t t' : ℤ → Node} {m v a b i j k n L o : ℕ} {x : Node}

/-- The state of node `m`. -/
def node (t : ℤ → Node) (m : ℕ) : Node := t ((m : ℤ) - 1)

theorem node_update : node (Function.update t ((m : ℤ) - 1) x) j = if j = m then x
    else node t j := by
  have h : ((j : ℤ) - 1 = (m : ℤ) - 1) ↔ j = m := by omega
  simp only [node, Function.update_apply, h]

@[simp] theorem node_update_self : node (Function.update t ((m : ℤ) - 1) x) m = x := by
  simp [node_update]

theorem node_update_of_ne (h : j ≠ m) :
    node (Function.update t ((m : ℤ) - 1) x) j = node t j := by
  simp [node_update, h]

section Index

theorem parentIndex_eq : parentIndex ((m : ℤ) - 1) = ((m / 2 : ℕ) : ℤ) - 1 := by
  have h : ((m : ℤ) - 1 + 1).tdiv 2 = ((m / 2 : ℕ) : ℤ) := by
    rw [sub_add_cancel]
    rfl
  rw [parentIndex, h]

theorem leftChildIndex_eq : leftChildIndex ((m : ℤ) - 1) = ((2 * m : ℕ) : ℤ) - 1 := by
  unfold leftChildIndex
  push_cast
  ring

theorem rightChildIndex_eq : rightChildIndex ((m : ℤ) - 1) = ((2 * m + 1 : ℕ) : ℤ) - 1 := by
  unfold rightChildIndex
  push_cast
  ring

theorem brotherIndex_eq (hm : 1 < m) : brotherIndex ((m : ℤ) - 1) = (mate m : ℤ) - 1 := by
  unfold brotherIndex mate
  split
  · push_cast
    omega
  · rw [Nat.cast_sub (by omega)]
    push_cast
    omega

theorem brotherIndex_one : brotherIndex (((1 : ℕ) : ℤ) - 1) < 0 := by decide

end Index

/-! ## Marking full nodes -/

def Closed (x : Node) : Prop := x = .used ∨ x = .full

/-- The marks of `_mark_parent` for node `v` reach `s` rows up. -/
structure Marked (t t' : ℤ → Node) (v s : ℕ) : Prop where
  climbed : ∀ i < s, 1 < v / 2 ^ i ∧ Closed (node t (mate (v / 2 ^ i)))
  stopped : v / 2 ^ s ≤ 1 ∨ ¬ Closed (node t (mate (v / 2 ^ s)))
  path : ∀ i, 0 < i → i ≤ s → node t' (v / 2 ^ i) = .full
  other : ∀ j, (∀ i, 0 < i → i ≤ s → j ≠ v / 2 ^ i) → node t' j = node t j

theorem markStep_ends (v : ℕ) (hv : 0 < v) (t : ℤ → Node) :
    ∃ t' s, Ends markStep ⟨t, (v : ℤ) - 1⟩ t' ∧ Marked t t' v s := by
  induction v using Nat.strong_induction_on generalizing t with
  | _ v ih =>
    by_cases hm : 1 < v ∧ Closed (node t (mate v))
    · obtain ⟨hv, hc⟩ := hm
      obtain ⟨t', s, he,
        h⟩ := ih (v / 2) (by omega) (by omega) (Function.update t (((v / 2 : ℕ) : ℤ) - 1) .full)
      have hstep : markStep ⟨t, (v : ℤ) - 1⟩ =
          .inl ⟨Function.update t (((v / 2 : ℕ) : ℤ) - 1) .full, ((v / 2 : ℕ) : ℤ) - 1⟩ := by
        have hp := mate_pos hv
        have h0 : (0 : ℤ) ≤ (mate v : ℤ) - 1 := by omega
        simp only [markStep, brotherIndex_eq hv, parentIndex_eq]
        rw [if_pos ⟨h0, hc⟩]
      refine ⟨t', s + 1, .go hstep he, ?_, ?_, ?_, ?_⟩
      · intro i hi
        cases i with
        | zero => simpa using ⟨hv, hc⟩
        | succ i =>
          obtain ⟨h₁, h₂⟩ := h.climbed i (by omega)
          rw [div_two_pow_succ']
          refine ⟨h₁, ?_⟩
          have hne : mate (v / 2 / 2 ^ i) ≠ v / 2 := by
            intro he
            apply not_above_mate h₁
            rw [he]
            exact ⟨i, rfl⟩
          rwa [node_update_of_ne hne] at h₂
      · rw [div_two_pow_succ']
        by_cases h₁ : v / 2 / 2 ^ s ≤ 1
        · exact .inl h₁
        · refine h.stopped.imp id fun hn => ?_
          have hne : mate (v / 2 / 2 ^ s) ≠ v / 2 := by
            intro he
            apply not_above_mate (v := v / 2 / 2 ^ s) (by omega)
            rw [he]
            exact ⟨s, rfl⟩
          rwa [node_update_of_ne hne] at hn
      · intro i hi his
        obtain ⟨i, rfl⟩ := Nat.exists_eq_add_one_of_ne_zero hi.ne'
        rw [div_two_pow_succ']
        by_cases hi0 : i = 0
        · subst hi0
          rw [pow_zero, Nat.div_one, h.other (v / 2)]
          · exact node_update_self
          · intro i hi _ he
            have := Nat.div_lt_self (by omega : 0 < v / 2) (Nat.one_lt_two_pow hi.ne')
            omega
        · exact h.path i (by omega) (by omega)
      · intro j hj
        rw [h.other j fun i hi his => by
          rw [← div_two_pow_succ']
          exact hj (i + 1) (by omega) (by omega)]
        apply node_update_of_ne
        simpa using hj 1 (by omega) (by omega)
    · have hstep : markStep ⟨t, (v : ℤ) - 1⟩ = .inr t := by
        simp only [markStep]
        rw [if_neg]
        rintro ⟨h0, hc⟩
        have hv1 : 1 < v := by
          by_contra hle
          obtain rfl : v = 1 := by omega
          have := brotherIndex_one
          omega
        rw [brotherIndex_eq hv1] at hc
        exact hm ⟨hv1, hc⟩
      refine ⟨t, 0, .stop hstep, by simp, ?_, by omega, fun _ _ => rfl⟩
      rw [pow_zero, Nat.div_one]
      by_cases h1 : v ≤ 1
      · exact .inl h1
      · exact .inr fun hc => hm ⟨by omega, hc⟩

/-! ## Combining free nodes -/

/-- The merges of `_combine_parent` lead from node `v` to `a`, and `u` full nodes above it become
split. -/
structure Combined (t t' : ℤ → Node) (v a u : ℕ) : Prop where
  merged : ∃ s, a = v / 2 ^ s ∧ ∀ i < s, 1 < v / 2 ^ i ∧ node t (mate (v / 2 ^ i)) = .unused
  stopped : a ≤ 1 ∨ node t (mate a) ≠ .unused
  freed : node t' a = .unused
  resplit : ∀ i, 0 < i → i ≤ u → node t (a / 2 ^ i) = .full ∧ node t' (a / 2 ^ i) = .split
  top : a / 2 ^ (u + 1) = 0 ∨ node t (a / 2 ^ (u + 1)) ≠ .full
  other : ∀ j, j ≠ a → (∀ i, 0 < i → i ≤ u → j ≠ a / 2 ^ i) → node t' j = node t j

theorem resplit_ends (a : ℕ) (t : ℤ → Node) :
    ∃ t' u, Ends combineStep (⟨t, (a : ℤ) - 1⟩, true) t' ∧
      (∀ i, 0 < i → i ≤ u → node t (a / 2 ^ i) = .full ∧ node t' (a / 2 ^ i) = .split) ∧
      (a / 2 ^ (u + 1) = 0 ∨ node t (a / 2 ^ (u + 1)) ≠ .full) ∧
      ∀ j, (∀ i, 0 < i → i ≤ u → j ≠ a / 2 ^ i) → node t' j = node t j := by
  induction a using Nat.strong_induction_on generalizing t with
  | _ a ih =>
    by_cases ha : 0 < a / 2 ∧ node t (a / 2) = .full
    · obtain ⟨ha, hf⟩ := ha
      obtain ⟨t', u, he, hr, ht, ho⟩ := ih (a / 2) (by omega)
        (Function.update t (((a / 2 : ℕ) : ℤ) - 1) .split)
      have hne : ∀ i, 0 < i → a / 2 / 2 ^ i ≠ a / 2 := fun i hi =>
        (Nat.div_lt_self ha (Nat.one_lt_two_pow hi.ne')).ne
      have hstep : combineStep (⟨t, (a : ℤ) - 1⟩, true) =
          .inl (⟨Function.update t (((a / 2 : ℕ) : ℤ) - 1) .split,
            ((a / 2 : ℕ) : ℤ) - 1⟩, true) := by
        have h0 : (0 : ℤ) ≤ ((a / 2 : ℕ) : ℤ) - 1 := by omega
        simp only [combineStep, parentIndex_eq, if_true]
        rw [if_pos ⟨h0, hf⟩]
      refine ⟨t', u + 1, .go hstep he, ?_, ?_, ?_⟩
      · intro i hi hiu
        obtain ⟨i, rfl⟩ := Nat.exists_eq_add_one_of_ne_zero hi.ne'
        rw [div_two_pow_succ']
        by_cases hi0 : i = 0
        · subst hi0
          rw [pow_zero, Nat.div_one, ho (a / 2) fun i hi _ => (hne i hi).symm]
          exact ⟨hf, node_update_self⟩
        · obtain ⟨h₁, h₂⟩ := hr i (by omega) (by omega)
          rw [node_update_of_ne (hne i (by omega))] at h₁
          exact ⟨h₁, h₂⟩
      · rw [div_two_pow_succ']
        rw [node_update_of_ne (hne (u + 1) (by omega))] at ht
        exact ht
      · intro j hj
        rw [ho j fun i hi hiu => by
          rw [← div_two_pow_succ']
          exact hj (i + 1) (by omega) (by omega)]
        apply node_update_of_ne
        simpa using hj 1 (by omega) (by omega)
    · have hstep : combineStep (⟨t, (a : ℤ) - 1⟩, true) = .inr t := by
        simp only [combineStep, parentIndex_eq, if_true]
        rw [if_neg]
        rintro ⟨h0, hf⟩
        exact ha ⟨by omega, hf⟩
      refine ⟨t, 0, .stop hstep, by omega, ?_, fun _ _ => rfl⟩
      rw [Nat.zero_add, pow_one]
      by_cases h0 : a / 2 = 0
      · exact .inl h0
      · exact .inr fun hf => ha ⟨by omega, hf⟩

theorem merge_ends (v : ℕ) (hv : 0 < v) (t : ℤ → Node) :
    ∃ s, 0 < v / 2 ^ s ∧ (∀ i < s, 1 < v / 2 ^ i ∧ node t (mate (v / 2 ^ i)) = .unused) ∧
      (v / 2 ^ s ≤ 1 ∨ node t (mate (v / 2 ^ s)) ≠ .unused) ∧
      ∀ r, Ends combineStep (⟨Function.update t (((v / 2 ^ s : ℕ) : ℤ) - 1) .unused,
          ((v / 2 ^ s : ℕ) : ℤ) - 1⟩, true) r →
        Ends combineStep (⟨t, (v : ℤ) - 1⟩, false) r := by
  induction v using Nat.strong_induction_on with
  | _ v ih =>
    by_cases hm : 1 < v ∧ node t (mate v) = .unused
    · obtain ⟨hv1, hm⟩ := hm
      obtain ⟨s, hs0, hs, hstop, he⟩ := ih (v / 2) (by omega) (by omega)
      refine ⟨s + 1, by rwa [div_two_pow_succ'], ?_, by rwa [div_two_pow_succ'], ?_⟩
      · intro i hi
        cases i with
        | zero => simpa using ⟨hv1, hm⟩
        | succ i =>
          rw [div_two_pow_succ']
          exact hs i (by omega)
      · intro r hr
        rw [div_two_pow_succ'] at hr
        apply Ends.go _ (he r hr)
        have hp := mate_pos hv1
        have h0 : ¬ ((mate v : ℤ) - 1 < 0 ∨ t ((mate v : ℤ) - 1) ≠ .unused) := by
          rintro (h | h)
          · omega
          · exact h hm
        simp only [combineStep, brotherIndex_eq hv1, parentIndex_eq, Bool.false_eq_true, if_false]
        rw [if_neg h0]
    · refine ⟨0, by simpa using hv, by omega, ?_, ?_⟩
      · rw [pow_zero, Nat.div_one]
        by_cases h1 : v ≤ 1
        · exact .inl h1
        · exact .inr fun hu => hm ⟨by omega, hu⟩
      · intro r hr
        rw [pow_zero, Nat.div_one] at hr
        apply Ends.go _ hr
        have h0 : brotherIndex ((v : ℤ) - 1) < 0 ∨
            t (brotherIndex ((v : ℤ) - 1)) ≠ .unused := by
          by_cases h1 : v ≤ 1
          · obtain rfl : v = 1 := by omega
            exact .inl brotherIndex_one
          · rw [brotherIndex_eq (by omega)]
            exact .inr fun hu => hm ⟨by omega, hu⟩
        simp only [combineStep, Bool.false_eq_true, if_false]
        rw [if_pos h0]

theorem combineStep_ends (hv : 0 < v) (t : ℤ → Node) :
    ∃ t' a u, Ends combineStep (⟨t, (v : ℤ) - 1⟩, false) t' ∧ 0 < a ∧ Combined t t' v a u := by
  obtain ⟨s, hs0, hs, hstop, he⟩ := merge_ends v hv t
  obtain ⟨t', u, he', hr, ht, ho⟩ := resplit_ends (v / 2 ^ s)
    (Function.update t (((v / 2 ^ s : ℕ) : ℤ) - 1) .unused)
  have hne : ∀ i, 0 < i → v / 2 ^ s / 2 ^ i ≠ v / 2 ^ s := fun i hi =>
    (Nat.div_lt_self hs0 (Nat.one_lt_two_pow hi.ne')).ne
  refine ⟨t', v / 2 ^ s, u, he t' he', hs0, ⟨s, rfl, hs⟩, hstop, ?_, ?_, ?_, ?_⟩
  · rw [ho _ fun i hi _ => (hne i hi).symm]
    exact node_update_self
  · intro i hi hiu
    obtain ⟨h₁, h₂⟩ := hr i hi hiu
    rw [node_update_of_ne (hne i hi)] at h₁
    exact ⟨h₁, h₂⟩
  · rw [node_update_of_ne (hne (u + 1) (by omega))] at ht
    exact ht
  · intro j hj hpath
    rw [ho j hpath, node_update_of_ne hj]

end UCore.BuddyTree
