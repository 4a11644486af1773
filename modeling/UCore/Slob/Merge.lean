import UCore.Slob.Model

/-! # Merging in the SLOB heap

What the end of `slob_free` does to the circle: the block is put after its place
and joined with the blocks that it touches.
-/

namespace UCore.Slob

open Library Library.Cycle

variable {arena a b c n p x cur prev : ℕ} {u v : ℤ} {h h₁ : Heap} {xs ys zs free used : List ℕ}
  {taken : ℕ → Prop}

/-- Block `b` has its place between `c` and the blocks `ys`. -/
structure Placed (arena : ℕ) (h : Heap) (xs ys : List ℕ) (b c : ℕ) : Prop where
  arena_lt : arena + slobUnit < b
  path : Path h.next c (ys ++ xs) c
  blocks : Blocks arena (2 ^ 64) (bytes h) (xs ++ c :: b :: ys)
  gapped : Gapped (bytes h) (xs ++ c :: ys)

/-- The heap after the join of block `b` with what follows it; the blocks `zs` come behind it. -/
structure JoinedNext (arena : ℕ) (h h₁ : Heap) (xs ys : List ℕ) (b c : ℕ) (zs : List ℕ) : Prop where
  sub : zs.Sublist ys
  path : Path h₁.next b (zs ++ xs) c
  blocks : Blocks arena (2 ^ 64) (bytes h₁) (xs ++ c :: b :: zs)
  cells : cells (bytes h₁) (xs ++ c :: b :: zs) = cells (bytes h) (xs ++ c :: b :: ys)
  gap : b + bytes h₁ b ∉ zs
  units : ∀ a, a ≠ b → h₁.units a = h.units a
  next : ∀ a, a ≠ b → h₁.next a = h.next a

/-- The heap `h'` after both joins. -/
structure Joined (arena : ℕ) (h h' : Heap) (xs ys : List ℕ) (b c : ℕ) (free' : List ℕ) : Prop where
  circle : Circle h'.next free'
  mem : c ∈ free'
  head : free'.head? = (xs ++ c :: ys).head?
  blocks : Blocks arena (2 ^ 64) (bytes h') free'
  gapped : Gapped (bytes h') free'
  cells : cells (bytes h') free' = cells (bytes h) (xs ++ c :: b :: ys)
  units : ∀ a, a ≠ b → (a = c → c + bytes h c ≠ b) → h'.units a = h.units a

theorem Inv.placed (i : Inv arena taken h free (b :: used)) :
    ∃ c xs ys, free = xs ++ c :: ys ∧ Placed arena h xs ys b c ∧
      cells (bytes h) (xs ++ c :: b :: ys) = cells (bytes h) free ∪ span b (bytes h b) ∧
      ∃ n, ∀ fuel, findPlace h b (n + fuel) h.slobfree = some c := by
  obtain ⟨hab, hpos, hhigh⟩ := i.held b List.mem_cons_self
  have hdis := Finset.disjoint_left.mp (i.apart b List.mem_cons_self)
  have hbspan : b ∈ span b (bytes h b) := by simp [hpos]
  have hbf : b ∉ free := fun hm => hdis hbspan (i.blocks.head_mem_cells hm)
  have hlt : arena < b := by
    unfold slobUnit at hab
    omega
  obtain ⟨c, hcm, hcb, hmax, hstop⟩ := i.place hlt hbf
  obtain ⟨xs, ys, rfl, hp⟩ := i.circle.split hcm
  have hbelow : ∀ a ∈ xs ++ c :: ys, a < b → a + bytes h a ≤ b := by
    intro a ha halt
    by_contra hle
    exact hdis hbspan (mem_cells.mpr ⟨a, ha, halt.le, by omega⟩)
  have habove : ∀ a ∈ xs ++ c :: ys, b < a → b + bytes h b ≤ a := by
    intro a ha hlt
    by_contra hle
    have hin : a ∈ span b (bytes h b) := by
      simp
      omega
    exact hdis hin (i.blocks.head_mem_cells ha)
  have hsort := List.pairwise_append.mp i.blocks.sorted
  have hx : ∀ x ∈ xs ++ [c], x + bytes h x ≤ b := by
    intro x hx
    rcases List.mem_append.mp hx with hx | hx
    · have := hsort.2.2 x hx c (by simp)
      exact hbelow x (List.mem_append_left _ hx) (by omega)
    · obtain rfl := List.mem_singleton.mp hx
      exact hbelow x (by simp) hcb
  have hy : ∀ y ∈ ys, b + bytes h b ≤ y := by
    intro y hy
    have hcy := (List.pairwise_cons.mp hsort.2.1).1 y hy
    have hym : y ∈ xs ++ c :: ys := by simp [hy]
    apply habove y hym
    have hne : y ≠ b := fun he => hbf (he ▸ hym)
    by_contra hle
    have := hmax y hym (by omega)
    omega
  have hw : Blocks arena (2 ^ 64) (bytes h) ((xs ++ [c]) ++ ys) := by
    simpa using i.blocks
  have hw' := hw.insert hpos hx hy hlt.le hhigh
  have hc' := hw.cells_insert hpos hx hy
  rw [Function.update_eq_self, List.append_assoc] at hw' hc'
  rw [List.append_assoc] at hc'
  refine ⟨c, xs, ys, rfl, ⟨hab, hp, hw', i.gapped⟩, hc', ?_⟩
  exact findPlace_reach hstop i.circle hcm i.slobfree

theorem head?_append_cons (xs ys zs : List ℕ) :
    (xs ++ p :: ys).head? = (xs ++ p :: zs).head? := by
  cases xs <;> rfl

section Join

variable (d : Placed arena h xs ys b c) (hk : kernbase ≤ arena)

include d

theorem Placed.nodup : (xs ++ c :: b :: ys).Nodup := d.blocks.nodup

theorem Placed.not_mem : b ∉ ys ++ xs ∧ c ∉ ys ++ xs ∧ b ≠ c := by
  have h₁ := List.nodup_append.mp d.nodup
  have h₂ := List.nodup_cons.mp h₁.2.1
  have h₃ := List.nodup_cons.mp h₂.2
  refine ⟨?_, ?_, ?_⟩
  · rw [List.mem_append]
    rintro (hm | hm)
    · exact h₃.1 hm
    · exact h₁.2.2 b hm b (by simp) rfl
  · rw [List.mem_append]
    rintro (hm | hm)
    · exact h₂.1 (List.mem_cons_of_mem _ hm)
    · exact h₁.2.2 c hm c (by simp) rfl
  · rintro rfl
    exact h₂.1 List.mem_cons_self

theorem Placed.bounds (ha : a ∈ xs ++ c :: b :: ys) :
    arena ≤ a ∧ 0 < bytes h a ∧ a + bytes h a ≤ 2 ^ 64 :=
  ⟨d.blocks.low a ha, d.blocks.pos a ha, d.blocks.high a ha⟩

theorem Placed.circle : Circle h.next (xs ++ c :: ys) := circle_iff.mpr d.path

theorem Placed.next_eq : (∃ ys', ys = h.next c :: ys') ∨ ys = [] ∧ h.next c < b := by
  have hp := d.path
  have hsort := List.pairwise_append.mp d.blocks.sorted
  cases ys with
  | cons y ys =>
    left
    exact ⟨ys, by rw [hp.1]⟩
  | nil =>
    right
    refine ⟨rfl, ?_⟩
    cases xs with
    | nil =>
      have hn : h.next c = c := hp
      rw [hn]
      exact (List.pairwise_cons.mp hsort.2.1).1 b (by simp)
    | cons x xs =>
      have hn : h.next c = x := hp.1
      rw [hn]
      exact hsort.2.2 x (by simp) b (by simp)

include hk

theorem Placed.next_pos : 0 < h.next c ∧ h.next c < 2 ^ 64 := by
  have hm := d.circle.next_mem (a := c) (by simp)
  have hm' : h.next c ∈ xs ++ c :: b :: ys := by
    simp only [List.mem_append, List.mem_cons] at hm ⊢
    tauto
  have := d.bounds hm'
  unfold kernbase at hk
  omega

/-- The block after its join with the block that follows it. -/
theorem Placed.joinNext_spec : ∃ zs, JoinedNext arena h (joinNext h b c) xs ys b c zs := by
  obtain ⟨hab, hbpos, hbhigh⟩ := d.bounds (a := b) (by simp)
  obtain ⟨hb, -, -⟩ := d.not_mem
  obtain ⟨hn, hn'⟩ := d.next_pos hk
  unfold kernbase at hk
  unfold joinNext
  split
  · rename_i hoff
    rw [offset_units_eq_iff hbpos hbhigh hn hn'] at hoff
    obtain ⟨ys', hys⟩ := d.next_eq.resolve_right fun hl => by omega
    set y := h.next c with hy
    subst hys
    obtain ⟨-, hypos, hyhigh⟩ := d.bounds (a := y) (by simp)
    have hbu := units_eq hbpos
    have hyu := units_eq hypos
    have hbytes : bytes ((h.setUnits b (h.units b + h.units y)).setNext b (h.next y)) =
        Function.update (bytes h) b (bytes h b + bytes h y) := by
      funext a
      by_cases hab : a = b
      · subst hab
        rw [Function.update_self]
        simp only [bytes, Heap.setNext_units, Heap.setUnits_units, Function.update_self]
        rw [int32_eq (by omega) (by omega)]
        unfold bytes slobUnit at *
        omega
      · rw [Function.update_of_ne hab]
        simp [bytes, hab]
    have hw : Blocks arena (2 ^ 64) (bytes h) ((xs ++ [c]) ++ b :: y :: ys') := by
      simpa using d.blocks
    have hm := hw.merge hoff
    have hc := hw.cells_merge hoff
    rw [List.append_assoc] at hm hc
    rw [List.append_assoc] at hc
    rw [← hbytes] at hm hc
    have hbm : ∀ a ∈ ys' ++ xs, a ≠ b := by
      rintro a ha rfl
      exact hb (by simpa using .inr (List.mem_append.mp ha))
    refine ⟨ys', List.sublist_cons_self y ys', ?_, hm, hc, ?_, ?_, ?_⟩
    · apply d.path.2.rehead
      · simp
      · intro a ha
        simp [hbm a ha]
    · rw [hbytes, Function.update_self, ← add_assoc, hoff]
      intro hmem
      exact d.gapped y (by simp) (by simp [hmem])
    · intro a ha
      simp [ha]
    · intro a ha
      simp [ha]
  · rename_i hoff
    rw [offset_units_eq_iff hbpos hbhigh hn hn'] at hoff
    have hbytes : bytes (h.setNext b (h.next c)) = bytes h := rfl
    have hbm : ∀ a ∈ ys ++ xs, a ≠ b := by
      rintro a ha rfl
      exact hb ha
    refine ⟨ys, List.Sublist.refl ys, ?_, d.blocks, rfl, ?_, fun _ _ => rfl, ?_⟩
    · apply d.path.rehead
      · simp
      · intro a ha
        simp [hbm a ha]
    · rw [hbytes]
      intro hmem
      obtain ⟨ys', hys⟩ := d.next_eq.resolve_right fun hl => by
        rw [hl.1] at hmem
        exact List.not_mem_nil hmem
      rw [hys] at hmem
      rcases List.mem_cons.mp hmem with he | hmem
      · exact hoff he
      · have hw : Blocks arena (2 ^ 64) (bytes h) ((xs ++ [c, b]) ++ h.next c :: ys') := by
          rw [← hys]
          simpa using d.blocks
        have h₁ := hw.le_right _ hmem
        have h₂ := hw.left_le b (by simp)
        have h₃ := hw.pos (h.next c) (by simp)
        omega
    · intro a ha
      simp [ha]

omit d hk in
theorem JoinedNext.bytes_eq (J : JoinedNext arena h h₁ xs ys b c zs) (ha : a ≠ b) :
    bytes h₁ a = bytes h a := by
  unfold bytes
  rw [J.units a ha]

omit d hk in
theorem JoinedNext.mem (J : JoinedNext arena h h₁ xs ys b c zs) (ha : a ∈ xs ++ c :: zs) :
    a ∈ xs ++ c :: ys := by
  rw [List.mem_append, List.mem_cons] at ha ⊢
  exact ha.imp id fun ha => ha.imp id fun hz => J.sub.subset hz

omit hk in
theorem Placed.joinNext_ne (J : JoinedNext arena h h₁ xs ys b c zs) (ha : a ∈ zs ++ xs) :
    a ≠ b ∧ a ≠ c := by
  obtain ⟨hb, hc, -⟩ := d.not_mem
  have ha' : a ∈ ys ++ xs := by
    rw [List.mem_append] at ha ⊢
    exact ha.imp (fun hz => J.sub.subset hz) id
  exact ⟨fun he => hb (he ▸ ha'), fun he => hc (he ▸ ha')⟩

omit hk in
theorem Placed.joinNext_gap (J : JoinedNext arena h h₁ xs ys b c zs) (ha : a ∈ xs ++ c :: zs) :
    a + bytes h₁ a ∉ xs ++ c :: ys := by
  have hne : a ≠ b := by
    rw [List.mem_append, List.mem_cons] at ha
    rcases ha with ha | rfl | ha
    · exact (d.joinNext_ne J (List.mem_append_right _ ha)).1
    · exact d.not_mem.2.2.symm
    · exact (d.joinNext_ne J (List.mem_append_left _ ha)).1
  rw [J.bytes_eq hne]
  exact d.gapped a (J.mem ha)

/-- The block ends where `b` starts, and takes it in. -/
theorem Placed.joinPrev_merge (J : JoinedNext arena h h₁ xs ys b c zs) (hm : c + bytes h c = b) :
    Joined arena h ((h₁.setUnits c (h₁.units c + h₁.units b)).setNext c (h₁.next b)) xs ys b c
      (xs ++ c :: zs) := by
  obtain ⟨-, -, hbc⟩ := d.not_mem
  obtain ⟨hclow, hcpos, hchigh⟩ := d.bounds (a := c) (by simp)
  unfold kernbase at hk
  have hpos₁ : 0 < bytes h₁ b := J.blocks.pos b (by simp)
  have hhigh₁ : b + bytes h₁ b ≤ 2 ^ 64 := J.blocks.high b (by simp)
  have hcu := units_eq hcpos
  have hbu := units_eq hpos₁
  have hbytes : bytes ((h₁.setUnits c (h₁.units c + h₁.units b)).setNext c (h₁.next b)) =
      Function.update (bytes h₁) c (bytes h₁ c + bytes h₁ b) := by
    funext a
    by_cases hac : a = c
    · subst hac
      rw [Function.update_self, J.bytes_eq hbc.symm]
      simp only [bytes, Heap.setNext_units, Heap.setUnits_units, Function.update_self]
      rw [J.units a hbc.symm, int32_eq (by omega) (by omega)]
      unfold bytes slobUnit at *
      omega
    · rw [Function.update_of_ne hac]
      simp [bytes, hac]
  have hm₁ : c + bytes h₁ c = b := by rw [J.bytes_eq hbc.symm, hm]
  constructor
  · rw [circle_iff]
    apply J.path.rehead
    · simp
    · intro a ha
      simp [(d.joinNext_ne J ha).2]
  · simp
  · exact head?_append_cons xs zs ys
  · rw [hbytes]
    exact J.blocks.merge hm₁
  · rw [hbytes]
    apply Gapped.merge hm₁
    intro a ha hmem
    by_cases hab : a = b
    · subst hab
      rw [List.mem_append, List.mem_cons] at hmem
      rcases hmem with hx | he | hz
      · have := (List.pairwise_append.mp J.blocks.sorted).2.2 _ hx a (by simp)
        omega
      · omega
      · exact J.gap hz
    · apply d.joinNext_gap J _ (J.mem hmem)
      rw [List.mem_append, List.mem_cons] at ha ⊢
      exact ha.imp id fun he => .inr (he.resolve_left hab)
  · rw [hbytes, ← J.cells]
    exact J.blocks.cells_merge hm₁
  · intro a hab hac
    have hne : a ≠ c := fun he => hac he hm
    simp [hne, J.units a hab]

omit hk in
/-- The block ends before `b`, which stays a block of its own. -/
theorem Placed.joinPrev_link (J : JoinedNext arena h h₁ xs ys b c zs) (hm : c + bytes h c ≠ b) :
    Joined arena h (h₁.setNext c b) xs ys b c (xs ++ c :: b :: zs) := by
  obtain ⟨-, -, hbc⟩ := d.not_mem
  have hbytes : bytes (h₁.setNext c b) = bytes h₁ := rfl
  constructor
  · rw [circle_iff]
    refine ⟨by simp, ?_⟩
    apply J.path.rehead
    · simp [hbc]
    · intro a ha
      simp [(d.joinNext_ne J ha).2]
  · simp
  · exact head?_append_cons xs (b :: zs) ys
  · exact J.blocks
  · have hw : Blocks arena (2 ^ 64) (bytes h₁) ((xs ++ [c]) ++ b :: zs) := by
      simpa using J.blocks
    have hg : Gapped (bytes h₁) ((xs ++ [c]) ++ b :: zs) := by
      apply Gapped.insert _ hw _ J.gap
      · intro a ha hmem
        have ha' : a ∈ xs ++ c :: zs := by simpa using ha
        have hmem' : a + bytes h₁ a ∈ xs ++ c :: zs := by simpa using hmem
        exact d.joinNext_gap J ha' (J.mem hmem')
      · intro a ha
        rcases List.mem_append.mp ha with ha | ha
        · have h₂ := J.blocks.left_le a ha
          have h₃ := J.blocks.le_right b (by simp)
          omega
        · obtain rfl := List.mem_singleton.mp ha
          rwa [J.bytes_eq hbc.symm]
    rw [hbytes]
    simpa using hg
  · exact J.cells
  · intro a hab _
    exact J.units a hab

/-- The whole end of `slob_free`. -/
theorem Placed.joinPrev_spec :
    ∃ free', Joined arena h (joinPrev (joinNext h b c) b c) xs ys b c free' := by
  obtain ⟨zs, J⟩ := d.joinNext_spec hk
  obtain ⟨hcpos₀, hcpos, hchigh⟩ := d.bounds (a := c) (by simp)
  obtain ⟨hab, hbpos, hbhigh⟩ := d.bounds (a := b) (by simp)
  unfold kernbase at hk
  have hoff : offset c ((joinNext h b c).units c) = b ↔ c + bytes h c = b := by
    rw [J.units c d.not_mem.2.2.symm]
    exact offset_units_eq_iff hcpos hchigh (by omega) (by omega)
  unfold joinPrev
  split
  · rename_i hm
    exact ⟨_, d.joinPrev_merge hk J (hoff.mp hm)⟩
  · rename_i hm
    exact ⟨_, d.joinPrev_link J fun he => hm (hoff.mpr he)⟩

end Join

end UCore.Slob
