import UCore.BuddyTree.Loops

/-! # The search for a node

The search of an allocation is a descent over the subtrees that are not full, in
the order of the offsets. The descent of a free follows the path to its node.
-/

namespace UCore.BuddyTree

open Library Library.PerfectTree

variable {t t' : ℤ → Node} {m v a b d i j k n L o : ℕ} {x : Node}

/-- A node below which the search goes on. -/
def Opened (x : Node) : Prop := x = .split ∨ x = .full

/-- The first node without use `n` rows below `m`, and the tree that the search leaves. -/
def find : ℕ → (ℤ → Node) → ℕ → Option ℕ × (ℤ → Node)
  | 0, t, m => (if node t m = .unused then some m else none, t)
  | n + 1, t, m =>
    if node t m = .unused ∨ node t m = .split then
      let l := find n (Function.update t ((m : ℤ) - 1) .split) (2 * m)
      if l.1.isSome then l else find n l.2 (2 * m + 1)
    else (none, t)

/-! ## The loop -/

/-- The search looks at node `m` in row `d`. -/
abbrev looking (L : ℕ) (t : ℤ → Node) (m d : ℕ) : Search :=
  ⟨⟨t, (m : ℤ) - 1⟩, d, 2 ^ (L - d), false⟩

/-- The search has found nothing below node `m`. -/
def leaving (L : ℕ) (t : ℤ → Node) (m d : ℕ) : Search :=
  if m % 2 = 0 then looking L t (m + 1) d else ⟨⟨t, (m : ℤ) - 1⟩, d, 2 ^ (L - d), true⟩

theorem searchStep_leaving (hu : ¬ (2 ^ (L - k) = 2 ^ (L - d) ∧ node t m = .unused))
    (ho : ¬ (2 ^ (L - k) < 2 ^ (L - d) ∧ (node t m = .unused ∨ node t m = .split))) :
    searchStep (2 ^ (L - k)) (looking L t m d) = .inl (leaving L t m d) := by
  have h₁ : ¬ (2 ^ (L - k) = 2 ^ (L - d) ∧ t ((m : ℤ) - 1) = .unused) := hu
  have h₂ : ¬ (2 ^ (L - k) < 2 ^ (L - d) ∧ t ((m : ℤ) - 1) = .unused) := fun h =>
    ho ⟨h.1, .inl h.2⟩
  have h₃ : ¬ (2 ^ (L - k) < 2 ^ (L - d) ∧ t ((m : ℤ) - 1) = .split) := fun h =>
    ho ⟨h.1, .inr h.2⟩
  simp only [searchStep, looking, leaving, Bool.false_eq_true, if_false]
  rw [if_neg h₁, if_neg h₂, if_neg h₃]
  by_cases he : m % 2 = 0
  · have hi : ((m : ℤ) - 1) % 2 = 1 := by omega
    rw [if_pos hi, if_pos he]
    simp
  · have hi : ¬ ((m : ℤ) - 1) % 2 = 1 := by omega
    rw [if_neg hi, if_neg he]

theorem searchStep_opening (ho : 2 ^ (L - k) < 2 ^ (L - d))
    (hx : node t m = .unused ∨ node t m = .split) :
    searchStep (2 ^ (L - k)) (looking L t m d) =
      .inl (looking L (Function.update t ((m : ℤ) - 1) .split) (2 * m) (d + 1)) := by
  have hd : d < L := by
    by_contra hle
    rw [Nat.sub_eq_zero_of_le (by omega : L ≤ d), pow_zero] at ho
    have := Nat.two_pow_pos (L - k)
    omega
  have hlen : 2 ^ (L - d) / 2 = 2 ^ (L - (d + 1)) := by
    have he : L - d = L - (d + 1) + 1 := by omega
    rw [he, pow_succ, Nat.mul_div_cancel _ (by omega)]
  have hne : ¬ (2 ^ (L - k) = 2 ^ (L - d) ∧ t ((m : ℤ) - 1) = .unused) := fun h => by omega
  simp only [searchStep, looking, Bool.false_eq_true, if_false, leftChildIndex_eq, hlen]
  rw [if_neg hne]
  rcases hx with hx | hx
  · have hx' : t ((m : ℤ) - 1) = .unused := hx
    rw [if_pos ⟨ho, hx'⟩]
    rfl
  · have hx' : t ((m : ℤ) - 1) = .split := hx
    have hs : Function.update t ((m : ℤ) - 1) .split = t := by
      rw [← hx']
      exact Function.update_eq_self _ _
    have hu : ¬ (2 ^ (L - k) < 2 ^ (L - d) ∧ t ((m : ℤ) - 1) = .unused) := by
      rw [hx']
      exact fun h => Node.noConfusion h.2
    rw [if_neg hu, if_pos ⟨ho, hx'⟩, hs]
    rfl

theorem searchStep_leaving_right (hm : 0 < m) (hd : d < L) {size : ℕ} :
    searchStep size (leaving L t (2 * m + 1) (d + 1)) = .inl (leaving L t m d) := by
  have hodd : ¬ (2 * m + 1) % 2 = 0 := by omega
  have hpar : parentIndex (((2 * m + 1 : ℕ) : ℤ) - 1) = (m : ℤ) - 1 := by
    rw [parentIndex_eq]
    congr 2
    omega
  have hlen : 2 ^ (L - (d + 1)) * 2 = 2 ^ (L - d) := by
    have he : L - d = L - (d + 1) + 1 := by omega
    rw [he, pow_succ]
  have hlev : ((d + 1 : ℕ) : ℤ) - 1 = d := by
    push_cast
    ring
  have h0 : ¬ (m : ℤ) - 1 < 0 := by omega
  simp only [leaving, hodd, if_false, searchStep, hpar, hlen, hlev, if_true]
  rw [if_neg h0]
  by_cases he : m % 2 = 0
  · have hi : ((m : ℤ) - 1) % 2 = 1 := by omega
    rw [if_pos hi, if_pos he]
    simp [looking]
  · have hi : ¬ ((m : ℤ) - 1) % 2 = 1 := by omega
    rw [if_neg hi, if_neg he]

/-- The loop of `buddy_alloc` from node `m` is the search below it. -/
theorem searchStep_ends (hm : 0 < m) (hk : d + n = k) (hL : k ≤ L) :
    (∀ v, (find n t m).1 = some v →
      Ends (searchStep (2 ^ (L - k))) (looking L t m d) (some ((v : ℤ) - 1, (k : ℤ)),
        (find n t m).2)) ∧
    ((find n t m).1 = none → ∀ r, Ends (searchStep (2 ^ (L - k))) (leaving L (find n t m).2 m d) r →
      Ends (searchStep (2 ^ (L - k))) (looking L t m d) r) := by
  induction n generalizing t m d with
  | zero =>
    obtain rfl : d = k := hk
    simp only [find]
    by_cases hu : node t m = .unused
    · rw [if_pos hu]
      refine ⟨?_, fun h => absurd h (Option.some_ne_none m)⟩
      intro v hv
      obtain rfl : m = v := Option.some.inj hv
      apply Ends.stop
      have hu' : t ((m : ℤ) - 1) = .unused := hu
      simp [searchStep, hu']
    · rw [if_neg hu]
      refine ⟨fun v h => absurd h.symm (Option.some_ne_none v), fun _ r hr => ?_⟩
      exact .go (searchStep_leaving (fun h => hu h.2) fun h => absurd h.1 (lt_irrefl _)) hr
  | succ n ih =>
    have hlt : 2 ^ (L - k) < 2 ^ (L - d) := Nat.pow_lt_pow_right Nat.one_lt_two (by omega)
    simp only [find]
    by_cases hx : node t m = .unused ∨ node t m = .split
    · rw [if_pos hx]
      have hopen := searchStep_opening hlt hx
      obtain ⟨hl₁, hl₂⟩ := ih (t := Function.update t ((m : ℤ) - 1) .split) (m := 2 * m)
        (d := d + 1) (by omega) (by omega)
      set l := find n (Function.update t ((m : ℤ) - 1) .split) (2 * m)
      cases hl : l.1 with
      | some w =>
        rw [if_pos (Option.isSome_some : (some w).isSome = true)]
        refine ⟨fun v hv => .go hopen (hl₁ v hv), fun h => ?_⟩
        rw [hl] at h
        exact absurd h (Option.some_ne_none w)
      | none =>
        rw [if_neg (by simp : ¬ (none : Option ℕ).isSome = true)]
        obtain ⟨hr₁, hr₂⟩ := ih (t := l.2) (m := 2 * m + 1) (d := d + 1) (by omega) (by omega)
        have hleft : leaving L l.2 (2 * m) (d + 1) = looking L l.2 (2 * m + 1) (d + 1) := by
          rw [leaving, if_pos (by omega)]
        constructor
        · intro v hv
          apply Ends.go hopen
          apply hl₂ hl
          rw [hleft]
          exact hr₁ v hv
        · intro hn r hr
          apply Ends.go hopen
          apply hl₂ hl
          rw [hleft]
          apply hr₂ hn
          exact .go (searchStep_leaving_right hm (by omega)) hr
    · rw [if_neg hx]
      refine ⟨fun v h => absurd h.symm (Option.some_ne_none v), fun _ r hr => ?_⟩
      exact .go (searchStep_leaving (fun h => absurd h.1 hlt.ne) fun h => hx h.2) hr

theorem searchStep_root (hk : k ≤ L) :
    Ends (searchStep (2 ^ (L - k))) ⟨⟨t, 0⟩, 0, 2 ^ L, false⟩
      ((find k t 1).1.map fun v : ℕ => ((v : ℤ) - 1, (k : ℤ)), (find k t 1).2) := by
  have hlook : looking L t 1 0 = ⟨⟨t, 0⟩, 0, 2 ^ L, false⟩ := rfl
  obtain ⟨h₁, h₂⟩ := searchStep_ends (t := t) (m := 1) (d := 0) (n := k) (L := L)
    Nat.one_pos (Nat.zero_add k) hk
  rw [hlook] at h₁ h₂
  cases hf : (find k t 1).1 with
  | some v => exact h₁ v hf
  | none =>
    apply h₂ hf
    apply Ends.stop
    have hp : parentIndex (((1 : ℕ) : ℤ) - 1) < 0 := by decide
    simp only [leaving, Nat.reduceMod, one_ne_zero, if_false, searchStep, if_true]
    rw [if_pos hp]
    rfl

/-! ## What the search finds -/

theorem find_grows (n : ℕ) (t : ℤ → Node) (m j : ℕ) :
    node (find n t m).2 j = node t j ∨
      node t j = .unused ∧ node (find n t m).2 j = .split := by
  induction n generalizing t m with
  | zero => exact .inl rfl
  | succ n ih =>
    simp only [find]
    split
    · rename_i hx
      have h₀ : node (Function.update t ((m : ℤ) - 1) .split) j = node t j ∨
          node t j = .unused ∧ node (Function.update t ((m : ℤ) - 1) .split) j = .split := by
        by_cases hj : j = m
        · subst hj
          rw [node_update_self]
          exact hx.symm.imp Eq.symm fun h => ⟨h, rfl⟩
        · exact .inl (node_update_of_ne hj)
      have hl := ih (Function.update t ((m : ℤ) - 1) .split) (2 * m)
      have hr := ih (find n (Function.update t ((m : ℤ) - 1) .split) (2 * m)).2 (2 * m + 1)
      split
      · grind
      · grind
    · exact .inl rfl

theorem find_some (hm : 0 < m) (h : (find n t m).1 = some v) :
    v / 2 ^ n = m ∧ node (find n t m).2 v = .unused ∧
      ∀ i, 0 < i → i ≤ n → node (find n t m).2 (v / 2 ^ i) = .split := by
  induction n generalizing t m with
  | zero =>
    simp only [find] at h ⊢
    split at h
    · obtain rfl : m = v := Option.some.inj h
      exact ⟨by simp, ‹_›, by omega⟩
    · exact absurd h.symm (Option.some_ne_none v)
  | succ n ih =>
    simp only [find] at h ⊢
    split at h
    · rename_i hx
      rw [if_pos hx]
      have hs : node (find n (Function.update t ((m : ℤ) - 1) .split) (2 * m)).2 m = .split := by
        rcases find_grows n (Function.update t ((m : ℤ) - 1) .split) (2 * m) m with h | h
        · rw [h, node_update_self]
        · exact h.2
      have key : ∀ t' c, 0 < c → c / 2 = m → (find n t' c).1 = some v →
          node (find n t' c).2 m = .split → v / 2 ^ (n + 1) = m ∧ node (find n t' c).2 v = .unused ∧
            ∀ i, 0 < i → i ≤ n + 1 → node (find n t' c).2 (v / 2 ^ i) = .split := by
        intro t' c hc hcm hv hms
        obtain ⟨h₁, h₂, h₃⟩ := ih hc hv
        have h₄ : v / 2 ^ (n + 1) = m := by rw [div_two_pow_succ, h₁, hcm]
        refine ⟨h₄, h₂, ?_⟩
        intro i hi hin
        rcases hin.lt_or_eq with hlt | rfl
        · exact h₃ i hi (by omega)
        · rw [h₄]
          exact hms
      split at h
      · rename_i hl
        rw [if_pos hl]
        exact key _ (2 * m) (by omega) (by omega) h hs
      · rename_i hl
        rw [if_neg hl]
        apply key _ (2 * m + 1) (by omega) (by omega) h
        rcases find_grows n (find n (Function.update t ((m : ℤ) - 1) .split) (2 * m)).2
          (2 * m + 1) m
          with h | h
        · rw [h, hs]
        · exact h.2
    · exact absurd h.symm (Option.some_ne_none v)

/-! ## The descent to a live node -/

/-- The descent to `v` passes the ancestors of `v`, which are split or full. -/
theorem descendStep_ends (hv0 : v ≠ 0) (hv : v < 2 ^ (L + 1)) (hu : node t v = .used)
    (ho : ∀ a, 0 < a → a ≠ v → Above a v → Opened (node t a)) (i : ℕ) (hi : v / 2 ^ i ≠ 0) :
    Ends (descendStep t (offset L v))
      ⟨((v / 2 ^ i : ℕ) : ℤ) - 1, offset L (v / 2 ^ i), size L (v / 2 ^ i)⟩
      (.ok ⟨(v : ℤ) - 1, offset L v, size L v⟩) := by
  induction i with
  | zero =>
    rw [pow_zero, Nat.div_one]
    apply Ends.stop
    have hu' : t ((v : ℤ) - 1) = .used := hu
    simp [descendStep, hu']
  | succ i ih =>
    have hi' : v / 2 ^ i ≠ 0 := by
      intro h0
      rw [div_two_pow_succ, h0] at hi
      exact hi rfl
    set a := v / 2 ^ (i + 1) with ha
    have hpos : 0 < a := Nat.pos_of_ne_zero hi
    have hhalf : v / 2 ^ i / 2 = a := div_two_pow_succ.symm
    have hopen : Opened (t ((a : ℤ) - 1)) := by
      apply ho a hpos
      · rw [ha]
        exact (Nat.div_lt_self (Nat.pos_of_ne_zero hv0) (Nat.one_lt_two_pow (by omega))).ne
      · exact ⟨i + 1, rfl⟩
    have haL : a < 2 ^ (L + 1) := (Nat.div_le_self _ _).trans_lt hv
    have hcL : v / 2 ^ i < 2 ^ (L + 1) := (Nat.div_le_self _ _).trans_lt hv
    have hlog : Nat.log 2 (v / 2 ^ i) = Nat.log 2 a + 1 := by
      rw [← hhalf, Nat.log_div_base]
      have : 1 ≤ Nat.log 2 (v / 2 ^ i) := by
        rw [Nat.le_log_iff_pow_le Nat.one_lt_two hi']
        omega
      omega
    have hlL := log_le hcL
    have hsize : size L a = 2 * size L (v / 2 ^ i) := by
      have he : L - Nat.log 2 a = L - Nat.log 2 (v / 2 ^ i) + 1 := by omega
      rw [size, size, he, pow_succ']
    have hlen : size L a / 2 = size L (v / 2 ^ i) := by omega
    have hoa := add_offset hi haL
    have hoc := add_offset hi' hcL
    have hov := add_offset hv0 hv
    have hstep : descendStep t (offset L v) ⟨(a : ℤ) - 1, offset L a, size L a⟩ =
        if offset L v < offset L a + size L (v / 2 ^ i) then
          .inl ⟨leftChildIndex ((a : ℤ) - 1), offset L a, size L (v / 2 ^ i)⟩
        else .inl ⟨rightChildIndex ((a : ℤ) - 1), offset L a + size L (v / 2 ^ i),
          size L (v / 2 ^ i)⟩ := by
      rw [← hlen]
      rcases hopen with hx | hx <;> simp only [descendStep, hx]
    -- the offset lies in the block of the child that the path takes
    have hxlt : offset L v < 2 ^ L := by
      have := offset_add_le hv0 hv
      have := size_pos (L := L) (v := v)
      omega
    have hmem : offset L (v / 2 ^ i) ≤ offset L v ∧
        offset L v < offset L (v / 2 ^ i) + size L (v / 2 ^ i) := by
      rw [mem_block_iff hi' hcL hxlt, hov]
      have hvv : Above v (v * size L v) := ⟨L - Nat.log 2 v, Nat.mul_div_cancel _ size_pos⟩
      have hcv : Above (v / 2 ^ i) v := ⟨i, rfl⟩
      exact hcv.trans hvv
    apply Ends.go _ (ih hi')
    rw [hstep, leftChildIndex_eq, rightChildIndex_eq]
    rcases (by omega : v / 2 ^ i = 2 * a ∨ v / 2 ^ i = 2 * a + 1) with hc | hc
    · have he : offset L (v / 2 ^ i) = offset L a := by
        have : a * size L a = v / 2 ^ i * size L (v / 2 ^ i) := by
          rw [hsize, hc]
          ring
        omega
      rw [if_pos (by omega), he, hc]
    · have he : offset L (v / 2 ^ i) = offset L a + size L (v / 2 ^ i) := by
        have : v / 2 ^ i * size L (v / 2 ^ i) = a * size L a + size L (v / 2 ^ i) := by
          rw [hsize]
          nth_rewrite 1 [hc]
          ring
        omega
      rw [if_neg (by omega), ← he, hc]

theorem descendStep_root (hv0 : v ≠ 0) (hv : v < 2 ^ (L + 1)) (hu : node t v = .used)
    (ho : ∀ a, 0 < a → a ≠ v → Above a v → Opened (node t a)) :
    Ends (descendStep t (offset L v)) ⟨0, 0, 2 ^ L⟩ (.ok ⟨(v : ℤ) - 1, offset L v, size L v⟩) := by
  have hroot := div_pow_log hv0
  have h := descendStep_ends hv0 hv hu ho (Nat.log 2 v) (by omega)
  rw [hroot] at h
  have hsz : size L 1 = 2 ^ L := by simp [size]
  have hof : offset L 1 = 0 := by simp [offset, hsz]
  rw [hsz, hof] at h
  exact h

end UCore.BuddyTree
