import Mathlib.Order.Bounds.Defs
import UCore.BuddyTree.Safety
import UCore.Defs

/-! # The bounds of the array

`buddy_alloc` with `int` sizes that wrap around, and with every access to the array checked. It
stays in the array exactly for the sizes whose next power of two is an `int`.
-/

namespace UCore.BuddyTree

open Library Library.PerfectTree Relation

/-- `size_to_alloc`: the last addition of `next_pow_of_2` may overflow. -/
def sizeToAllocInt (sizeNeeded : ℕ) : ℤ := int32 (sizeToAlloc sizeNeeded)

/-- An index of the array of `new_buddy`. -/
def Inside (level : ℕ) (index : ℤ) : Prop := 0 ≤ index ∧ index < 2 ^ (level + 1) - 1

instance (level : ℕ) (index : ℤ) : Decidable (Inside level index) :=
  inferInstanceAs (Decidable (_ ∧ _))

/-- The loop of `_mark_parent`. The result is `none` after an access outside the array. -/
def markStepIn (level : ℕ) (s : Cursor) : Cursor ⊕ Option (ℤ → Node) :=
  let brother := brotherIndex s.index
  if 0 ≤ brother then
    if Inside level brother then
      if s.tree brother = .used ∨ s.tree brother = .full then
        let index := parentIndex s.index
        if Inside level index then .inl ⟨Function.update s.tree index .full, index⟩
        else .inr none
      else .inr (some s.tree)
    else .inr none
  else .inr (some s.tree)

/-- The right brother, or the way back from a node without one. -/
def moveOn (s : Search) : Search :=
  if s.index % 2 = 1 then ⟨⟨s.tree, s.index + 1⟩, s.level, s.length, false⟩
  else ⟨⟨s.tree, s.index⟩, s.level, s.length, true⟩

/-- The search of `buddy_alloc`. The result is `none` after an access outside the array. -/
def searchStepIn (level : ℕ) (sizeToAlloc : ℤ) (s : Search) :
    Search ⊕ Option (Option (ℤ × ℤ) × (ℤ → Node)) :=
  if s.backtracking then
    let level := s.level - 1
    let index := parentIndex s.index
    let length := s.length * 2
    if index < 0 then .inr (some (none, s.tree))
    else if index % 2 = 1 then .inl ⟨⟨s.tree, index + 1⟩, level, length, false⟩
    else .inl ⟨⟨s.tree, index⟩, level, length, true⟩
  else if sizeToAlloc = s.length then
    if Inside level s.index then
      if s.tree s.index = .unused then .inr (some (some (s.index, s.level), s.tree))
      else .inl (moveOn s)
    else .inr none
  else if sizeToAlloc < s.length then
    if Inside level s.index then
      if s.tree s.index = .unused then
        .inl ⟨⟨Function.update s.tree s.index .split, leftChildIndex s.index⟩, s.level + 1,
          s.length / 2, false⟩
      else if s.tree s.index = .split then
        .inl ⟨⟨s.tree, leftChildIndex s.index⟩, s.level + 1, s.length / 2, false⟩
      else .inl (moveOn s)
    else .inr none
  else .inl (moveOn s)

/-- The search starts at the root. -/
def searchStart (b : Buddy) : Search := ⟨⟨b.tree, 0⟩, 0, 2 ^ b.level, false⟩

def useNodeIn (fuel : ℕ) (b : Buddy) :
    Option (ℤ × ℤ) × (ℤ → Node) → Option (Option (ℤ × Buddy))
  | (none, tree) => some (some (-1, { b with tree := tree }))
  | (some (index, level), tree) =>
    (iterate (markStepIn b.level) fuel ⟨Function.update tree index .used, index⟩).map
      fun r => r.map fun tree => (index2offset index level b.level, { b with tree := tree })

/-- `buddy_alloc`: `some none` after an access outside the array. -/
def buddyAllocIn (fuel : ℕ) (b : Buddy) (sizeNeeded : ℕ) : Option (Option (ℤ × Buddy)) :=
  let size := sizeToAllocInt sizeNeeded
  if 2 ^ b.level < size then some (some (-1, b))
  else (iterate (searchStepIn b.level size) fuel (searchStart b)).bind fun
    | none => some none
    | some r => useNodeIn fuel b r

/-- The level is the depth of the node, and the length is the size of its block. -/
structure Consistent (level : ℕ) (s : Search) : Prop where
  nonneg : 0 ≤ s.index
  le_level : s.level ≤ level
  depth : s.level = Nat.log 2 (s.index + 1).toNat
  length : s.length = 2 ^ (level - s.level).toNat

/-- What is expected of a call. -/
structure AllocSound (b : Buddy) (sizeNeeded : ℕ) : Prop where
  /-- The call ends, and it stays in the array. -/
  ends : ∃ fuel r, buddyAllocIn fuel b sizeNeeded = some (some r)
  /-- Every state that the search reaches is consistent. -/
  consistent : ¬ 2 ^ b.level < sizeToAllocInt sizeNeeded → ∀ s,
    ReflTransGen (fun s t => searchStepIn b.level (sizeToAllocInt sizeNeeded) s = .inl t)
      (searchStart b) s → Consistent b.level s
  /-- No other `int` of the search overflows. -/
  fits : ¬ 2 ^ b.level < sizeToAllocInt sizeNeeded → ∀ s,
    ReflTransGen (fun s t => searchStepIn b.level (sizeToAllocInt sizeNeeded) s = .inl t)
      (searchStart b) s → leftChildIndex s.index < 2 ^ 31 ∧ s.length * 2 < 2 ^ 31
  /-- What is searched for is the least power of two. -/
  least : ¬ 2 ^ b.level < sizeToAllocInt sizeNeeded →
    IsLeast {p : ℤ | (∃ k : ℕ, p = 2 ^ k) ∧ (sizeNeeded : ℤ) ≤ p} (sizeToAllocInt sizeNeeded)

variable {L m d k n : ℕ} {s t : Search} {b : Buddy} {tree : ℤ → Node} {flag : Bool}

/-! ## The states of the search -/

theorem inside_node (h0 : 0 < m) (hm : m < 2 ^ (L + 1)) : Inside L ((m : ℤ) - 1) := by
  have h : (m : ℤ) < 2 ^ (L + 1) := by exact_mod_cast hm
  exact ⟨by omega, by omega⟩

theorem consistent_node (h0 : 0 < m) (hd : Nat.log 2 m = d) (hL : d ≤ L) :
    Consistent L ⟨⟨tree, (m : ℤ) - 1⟩, d, 2 ^ (L - d), flag⟩ where
  nonneg := by
    change (0 : ℤ) ≤ (m : ℤ) - 1
    omega
  le_level := Int.ofNat_le.mpr hL
  depth := by
    change (d : ℤ) = Nat.log 2 ((m : ℤ) - 1 + 1).toNat
    rw [Int.sub_add_cancel, Int.toNat_natCast, hd]
  length := by
    change 2 ^ (L - d) = 2 ^ ((L : ℤ) - d).toNat
    rw [← Nat.cast_sub hL, Int.toNat_natCast]

theorem Consistent.exists_node (h : Consistent L s) :
    ∃ m d, 0 < m ∧ Nat.log 2 m = d ∧ d ≤ L ∧
      s = ⟨⟨s.tree, (m : ℤ) - 1⟩, d, 2 ^ (L - d), s.backtracking⟩ := by
  obtain ⟨⟨tree, index⟩, level, length, flag⟩ := s
  obtain ⟨h₁, h₂, h₃, h₄⟩ := h
  dsimp only at h₁ h₂ h₃ h₄
  have hd : Nat.log 2 (index + 1).toNat ≤ L := by omega
  have hx : (((index + 1).toNat : ℕ) : ℤ) - 1 = index := by omega
  refine ⟨(index + 1).toNat, Nat.log 2 (index + 1).toNat, by omega, rfl, hd, ?_⟩
  rw [hx, h₄, h₃, ← Nat.cast_sub hd, Int.toNat_natCast]

theorem Consistent.inside (h : Consistent L s) : Inside L s.index := by
  obtain ⟨m, d, h0, hd, hL, hs⟩ := h.exists_node
  rw [hs]
  refine inside_node h0 ((Nat.lt_pow_succ_log_self Nat.one_lt_two m).trans_le ?_)
  exact Nat.pow_le_pow_right Nat.two_pos (by omega)

theorem log_half (h : 1 < m) : Nat.log 2 m = Nat.log 2 (m / 2) + 1 :=
  Nat.log_of_one_lt_of_le Nat.one_lt_two h

theorem log_succ_of_even (h0 : 0 < m) (h : m % 2 = 0) : Nat.log 2 (m + 1) = Nat.log 2 m := by
  have he : (m + 1) / 2 = m / 2 := by omega
  rw [log_half (by omega : 1 < m), log_half (by omega : 1 < m + 1), he]

theorem consistent_moveOn (tree : ℤ → Node) (flag : Bool) (h0 : 0 < m) (hd : Nat.log 2 m = d)
    (hL : d ≤ L) :
    Consistent L (moveOn ⟨⟨tree, (m : ℤ) - 1⟩, d, 2 ^ (L - d), flag⟩) := by
  unfold moveOn
  split
  · rename_i he
    change ((m : ℤ) - 1) % 2 = 1 at he
    have hx : (m : ℤ) - 1 + 1 = ((m + 1 : ℕ) : ℤ) - 1 := by
      push_cast
      ring
    change Consistent L ⟨⟨tree, (m : ℤ) - 1 + 1⟩, d, 2 ^ (L - d), false⟩
    rw [hx]
    refine consistent_node (Nat.succ_pos m) ?_ hL
    rw [log_succ_of_even h0 (by omega), hd]
  · exact consistent_node h0 hd hL

theorem consistent_left (h0 : 0 < m) (hd : Nat.log 2 m = d) (hL : d < L) :
    Consistent L ⟨⟨tree, leftChildIndex ((m : ℤ) - 1)⟩, (d : ℤ) + 1, 2 ^ (L - d) / 2, false⟩ := by
  have hlen : 2 ^ (L - d) / 2 = 2 ^ (L - (d + 1)) := by
    have he : L - d = L - (d + 1) + 1 := by omega
    rw [he, pow_succ, Nat.mul_div_cancel _ Nat.two_pos]
  rw [leftChildIndex_eq, hlen, ← Nat.cast_succ]
  refine consistent_node (by omega) ?_ hL
  rw [log_half (by omega), Nat.mul_div_cancel_left m Nat.two_pos, hd]

theorem consistent_parent (h : 1 < m) (hd : Nat.log 2 m = d) (hL : d ≤ L) :
    ((m / 2 : ℕ) : ℤ) - 1 = parentIndex ((m : ℤ) - 1) ∧ Nat.log 2 (m / 2) = d - 1 ∧
      (d : ℤ) - 1 = ((d - 1 : ℕ) : ℤ) ∧ 2 ^ (L - d) * 2 = 2 ^ (L - (d - 1)) := by
  have hlog := log_half h
  have hd1 : 1 ≤ d := by omega
  refine ⟨parentIndex_eq.symm, by omega, by omega, ?_⟩
  have he : L - (d - 1) = L - d + 1 := by omega
  rw [he, pow_succ]

/-- A step from a consistent state does not leave the array, and leads to a consistent state. -/
theorem Consistent.step (h : Consistent L s) (hn : 0 < n) (hs : searchStepIn L n s = .inl t) :
    Consistent L t := by
  have hin := h.inside
  obtain ⟨m, d, h0, hd, hL, heq⟩ := h.exists_node
  unfold searchStepIn at hs
  rw [heq] at hs hin
  dsimp only at hs hin
  simp only [if_pos hin] at hs
  split at hs
  · by_cases hm : m = 1
    · subst hm
      rw [if_pos (show parentIndex (((1 : ℕ) : ℤ) - 1) < 0 by decide)] at hs
      cases hs
    · obtain ⟨hp, hlog, hlev, hlen⟩ := consistent_parent (by omega : 1 < m) hd hL
      rw [← hp, hlev, hlen, if_neg (by omega)] at hs
      have hmove := consistent_moveOn s.tree true (by omega : 0 < m / 2) hlog
        (by omega : d - 1 ≤ L)
      unfold moveOn at hmove
      dsimp only at hmove
      split at hs
      · rename_i he
        rw [if_pos he] at hmove
        exact Sum.inl.inj hs ▸ hmove
      · rename_i he
        rw [if_neg he] at hmove
        exact Sum.inl.inj hs ▸ hmove
  · split at hs
    · split at hs
      · cases hs
      · exact Sum.inl.inj hs ▸ consistent_moveOn _ _ h0 hd hL
    · split at hs
      · rename_i hlt
        have hdL : d < L := by
          by_contra hge
          have hz : L - d = 0 := by omega
          rw [hz] at hlt
          have : n < 1 := by exact_mod_cast hlt
          omega
        split at hs
        · exact Sum.inl.inj hs ▸ consistent_left h0 hd hdL
        · split at hs
          · exact Sum.inl.inj hs ▸ consistent_left h0 hd hdL
          · exact Sum.inl.inj hs ▸ consistent_moveOn _ _ h0 hd hL
      · exact Sum.inl.inj hs ▸ consistent_moveOn _ _ h0 hd hL

theorem searchStepIn_eq (h : Inside L s.index) :
    searchStepIn L n s = Sum.map id some (searchStep n s) := by
  unfold searchStepIn searchStep
  simp only [if_pos h, Nat.cast_inj, Nat.cast_lt]
  split
  · split
    · rfl
    · split <;> rfl
  · by_cases he : n = s.length
    · have hlt : ¬ n < s.length := by omega
      by_cases hu : s.tree s.index = .unused
      · simp only [he, hu, if_true, and_self]
        rfl
      · simp only [he, hu, if_true, and_false, if_false, moveOn, lt_irrefl, false_and]
        split <;> rfl
    · simp only [he, if_false, false_and]
      by_cases hlt : n < s.length
      · simp only [hlt, if_true, true_and]
        split
        · rfl
        · split
          · rfl
          · unfold moveOn
            split <;> rfl
      · simp only [hlt, if_false, false_and]
        unfold moveOn
        split <;> rfl

/-! ## The calls -/

theorem consistent_start : Consistent b.level (searchStart b) :=
  consistent_node Nat.one_pos (Nat.log_one_right 2) (Nat.zero_le b.level)

theorem Consistent.fits (h : Consistent L s) (hL : L ≤ 29) :
    leftChildIndex s.index < 2 ^ 31 ∧ s.length * 2 < 2 ^ 31 := by
  obtain ⟨m, d, h0, hd, hdL, hs⟩ := h.exists_node
  have hm : m < 2 ^ 30 := by
    refine (Nat.lt_pow_succ_log_self Nat.one_lt_two m).trans_le ?_
    exact Nat.pow_le_pow_right Nat.two_pos (by omega)
  have hlen : 2 ^ (L - d) ≤ 2 ^ 29 := Nat.pow_le_pow_right Nat.two_pos (by omega)
  rw [hs]
  dsimp only
  rw [leftChildIndex_eq]
  omega

theorem Consistent.reach (hn : 0 < n)
    (hr : ReflTransGen (fun s t => searchStepIn b.level n s = .inl t) (searchStart b) s) :
    Consistent b.level s := by
  induction hr with
  | refl => exact consistent_start
  | tail _ hs ih => exact ih.step hn hs

theorem searchStepIn_ends (hk : k ≤ b.level) :
    Ends (searchStepIn b.level (2 ^ (b.level - k) : ℕ)) (searchStart b)
      (some ((find k b.tree 1).1.map fun v : ℕ => ((v : ℤ) - 1, (k : ℤ)),
        (find k b.tree 1).2)) := by
  refine (searchStep_root (t := b.tree) hk).map (I := Consistent b.level) consistent_start
    (fun s hs => searchStepIn_eq hs.inside) fun s t hs hst => ?_
  refine hs.step (Nat.two_pow_pos _) (?_ : searchStepIn b.level (2 ^ (b.level - k) : ℕ) s = .inl t)
  rw [searchStepIn_eq hs.inside, hst]
  rfl

theorem markStepIn_ends (tree : ℤ → Node) {v : ℕ} (h0 : 0 < v) (hv : v < 2 ^ (L + 1)) :
    ∃ t', Ends (markStepIn L) ⟨tree, (v : ℤ) - 1⟩ (some t') := by
  obtain ⟨t', -, he, -⟩ := markStep_ends v h0 tree
  -- every cursor is at a node of the tree
  refine ⟨t', he.map (I := fun c => ∃ v : ℕ, 0 < v ∧ v < 2 ^ (L + 1) ∧ c.index = (v : ℤ) - 1)
    ⟨v, h0, hv, rfl⟩ ?_ ?_⟩
  · rintro ⟨t, _⟩ ⟨w, hw0, hw, rfl⟩
    unfold markStepIn markStep
    by_cases hw1 : w = 1
    · subst hw1
      have hneg : ¬ 0 ≤ brotherIndex (((1 : ℕ) : ℤ) - 1) := by decide
      simp only [hneg, if_false, false_and]
      rfl
    · have hpos := mate_pos (by omega : 1 < w)
      have hmate : Inside L ((mate w : ℤ) - 1) := inside_node (by omega) (mate_lt hw)
      have hparent : Inside L (((w / 2 : ℕ) : ℤ) - 1) := inside_node (by omega) (by omega)
      simp only [brotherIndex_eq (by omega : 1 < w), parentIndex_eq, if_pos hmate, if_pos hparent,
        hmate.1, if_true, true_and]
      split <;> rfl
  · rintro ⟨t, _⟩ c ⟨w, hw0, hw, rfl⟩ hs
    unfold markStep at hs
    dsimp only at hs
    split at hs
    · rename_i hb
      have hw1 : w ≠ 1 := by
        rintro rfl
        exact absurd hb.1 (by decide)
      refine ⟨w / 2, by omega, by omega, ?_⟩
      rw [← Sum.inl.inj hs, parentIndex_eq]
    · cases hs

theorem useNodeIn_ends (r : Option ℕ × (ℤ → Node)) (hr : ∀ v ∈ r.1, 0 < v ∧ v < 2 ^ (b.level + 1)) :
    ∃ n o, ∀ fuel, useNodeIn (n + fuel) b (r.1.map fun v : ℕ => ((v : ℤ) - 1, (k : ℤ)), r.2) =
      some (some o) := by
  obtain ⟨u, t'⟩ := r
  cases u with
  | none => exact ⟨0, _, fun fuel => rfl⟩
  | some v =>
    obtain ⟨h0, hv⟩ := hr v rfl
    obtain ⟨t₂, n, hn⟩ := markStepIn_ends (Function.update t' ((v : ℤ) - 1) .used) h0 hv
    refine ⟨n, (index2offset ((v : ℤ) - 1) k b.level, { b with tree := t₂ }), fun fuel => ?_⟩
    rw [Option.map_some, useNodeIn, iterate_mono hn]
    rfl

theorem buddyAllocIn_ends {sizeNeeded : ℕ} (hk : k ≤ b.level)
    (hs : sizeToAllocInt sizeNeeded = (2 ^ (b.level - k) : ℕ)) :
    ∃ fuel r, buddyAllocIn fuel b sizeNeeded = some (some r) := by
  obtain ⟨n, hn⟩ := searchStepIn_ends hk
  obtain ⟨m, o, hm⟩ := useNodeIn_ends (b := b) (k := k) (find k b.tree 1) fun v hv => by
    obtain ⟨hrow, -⟩ := find_some Nat.one_pos hv
    refine ⟨Nat.pos_of_ne_zero ?_, lt_of_row hk hrow⟩
    rintro rfl
    rw [Nat.zero_div] at hrow
    cases hrow
  have hle : ¬ (2 : ℤ) ^ b.level < (2 ^ (b.level - k) : ℕ) := by
    rw [Int.not_lt]
    exact_mod_cast Nat.pow_le_pow_right Nat.two_pos (Nat.sub_le _ _)
  refine ⟨m + n, o, ?_⟩
  rw [buddyAllocIn, hs, if_neg hle, Nat.add_comm m n, iterate_mono hn, Option.bind_some,
    Nat.add_comm n m]
  exact hm n

/-! ## The sizes -/

variable {sizeNeeded : ℕ}

theorem le_blockSize : sizeNeeded ≤ blockSize sizeNeeded := by
  unfold blockSize
  split
  · rename_i h
    omega
  · exact Nat.le_pow_clog Nat.one_lt_two sizeNeeded

theorem blockSize_le (h : sizeNeeded ≤ 2 ^ k) : blockSize sizeNeeded ≤ 2 ^ k := by
  unfold blockSize
  split
  · exact Nat.one_le_two_pow
  · exact Nat.pow_le_pow_right Nat.two_pos (Nat.clog_le_of_le_pow h)

theorem sizeToAllocInt_eq (h : sizeNeeded ≤ 2 ^ 30) :
    sizeToAllocInt sizeNeeded = blockSize sizeNeeded := by
  have hle := blockSize_le h
  rw [sizeToAllocInt, sizeToAlloc_eq (by omega), int32]
  exact Int.bmod_eq_of_le (by omega) (by omega)

theorem isLeast_blockSize :
    IsLeast {p : ℤ | (∃ k : ℕ, p = 2 ^ k) ∧ (sizeNeeded : ℤ) ≤ p} (blockSize sizeNeeded) := by
  refine ⟨⟨?_, Int.ofNat_le.mpr le_blockSize⟩, ?_⟩
  · unfold blockSize
    split
    · exact ⟨0, rfl⟩
    · exact ⟨Nat.clog 2 sizeNeeded, by push_cast; rfl⟩
  · rintro p ⟨⟨k, rfl⟩, hk⟩
    exact_mod_cast blockSize_le (k := k) (by exact_mod_cast hk)

theorem sizeToAllocInt_overflow (h : 2 ^ 30 < sizeNeeded) (hs : sizeNeeded < 2 ^ 31) :
    sizeToAllocInt sizeNeeded = -2 ^ 31 := by
  have hclog : Nat.clog 2 sizeNeeded = 31 := by
    refine le_antisymm (Nat.clog_le_of_le_pow hs.le) ?_
    exact (Nat.lt_clog_iff_pow_lt Nat.one_lt_two).mpr h
  have hsize : blockSize sizeNeeded = 2 ^ 31 := by
    rw [blockSize, if_neg (by omega), hclog]
  rw [sizeToAllocInt, sizeToAlloc_eq (by omega), hsize]
  decide

theorem not_allocSound (h : 2 ^ 30 < sizeNeeded) (hs : sizeNeeded < 2 ^ 31) :
    ¬ AllocSound b sizeNeeded := by
  intro ha
  have hsize := sizeToAllocInt_overflow h hs
  have hpow : (0 : ℤ) < 2 ^ b.level := Int.pow_pos (by decide)
  obtain ⟨⟨⟨k, hk⟩, -⟩, -⟩ := ha.least (by omega)
  have : (0 : ℤ) < 2 ^ k := Int.pow_pos (by decide)
  omega

/-- The call is sound exactly when the next power of two is an `int`. -/
theorem allocSound_iff (b : Buddy) (sizeNeeded : ℕ) (hl : b.level ≤ 29) (hs : sizeNeeded < 2 ^ 31) :
    AllocSound b sizeNeeded ↔ sizeNeeded ≤ 2 ^ 30 := by
  constructor
  · intro h
    by_contra hlt
    exact not_allocSound (Nat.lt_of_not_le hlt) hs h
  · intro h
    have hsize := sizeToAllocInt_eq h
    by_cases hlt : (2 : ℤ) ^ b.level < sizeToAllocInt sizeNeeded
    · refine ⟨⟨0, (-1, b), ?_⟩, fun hn => absurd hlt hn, fun hn => absurd hlt hn,
        fun hn => absurd hlt hn⟩
      rw [buddyAllocIn, if_pos hlt]
    · have hle : sizeNeeded ≤ 2 ^ b.level := by
        rw [hsize, Int.not_lt] at hlt
        exact le_blockSize.trans (by exact_mod_cast hlt)
      have hrow : sizeToAllocInt sizeNeeded = (2 ^ (b.level - row b.level sizeNeeded) : ℕ) := by
        rw [hsize, blockSize_eq hle]
      have hreach : ∀ s, ReflTransGen
          (fun s t => searchStepIn b.level (sizeToAllocInt sizeNeeded) s = .inl t)
          (searchStart b) s → Consistent b.level s := by
        rw [hrow]
        exact fun s hr => Consistent.reach (Nat.two_pow_pos _) hr
      exact ⟨buddyAllocIn_ends row_le hrow, fun _ => hreach, fun _ s hr => (hreach s hr).fits hl,
        fun _ => hsize ▸ isLeast_blockSize⟩

theorem allocSound_iff_three : AllocSound (newBuddy 3) 5 :=
  (allocSound_iff (newBuddy 3) 5 (by decide) (by decide)).mpr (by decide)

/-- A search for a size that overflowed leaves the array of a single block. -/
theorem allocSound_overflow : ¬ AllocSound (newBuddy 0) (2 ^ 30 + 1) ∧
    (buddyAllocIn 2 (newBuddy 0) (2 ^ 30 + 1)).map Option.isSome = some false := by
  refine ⟨not_allocSound ?_ ?_, ?_⟩
  · decide
  · decide
  · decide +kernel

end UCore.BuddyTree
