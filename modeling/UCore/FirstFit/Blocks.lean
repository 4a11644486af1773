import UCore.FirstFit.Model

/-! # Well-formed free lists

The free list as the increasing sequence of its block heads. Every operation of
the allocator is a change of this sequence, as long as no block is inserted at
its tail.
-/

namespace UCore.FirstFit

open Library

/-- The free list of the managed range `[lo, lo + n)` links the heads `bs`. -/
structure Wf (lo n : ℕ) (s : State) (bs : List ℕ) : Prop where
  ring : s.links.Ring .freeList (bs.map .pageLink)
  blocks : Blocks lo (lo + n) s.property bs
  head_iff : ∀ p, lo ≤ p → p < lo + n → (s.pageProperty p = true ↔ p ∈ bs)
  unreserved : ∀ p, lo ≤ p → p < lo + n → s.reserved p = false
  total : (bs.map s.property).sum = s.nrFree
  fits : lo + n ≤ s.npage

theorem pageLink_not_mem {bs : List ℕ} {p : ℕ} :
    Entry.pageLink p ∉ Entry.freeList :: bs.map Entry.pageLink ↔ p ∉ bs := by
  simp

/-! ## The loops over the free list -/

section Scan

variable {s : State} {le : Entry} {fuel : ℕ}

theorem allocScan_eq {n : ℕ} {bs : List ℕ} (hp : s.links.Path le (bs.map .pageLink) .freeList)
    (hf : bs.length < fuel) :
    allocScan s n fuel le = some (bs.find? fun b => decide (n ≤ s.property b)) := by
  induction bs generalizing le fuel with
  | nil =>
    obtain ⟨fuel, rfl⟩ := Nat.exists_eq_add_one_of_ne_zero (by omega : fuel ≠ 0)
    have hn : s.links.next le = .freeList := hp.1
    simp [allocScan, listNext, hn]
  | cons b bs ih =>
    obtain ⟨fuel, rfl⟩ := Nat.exists_eq_add_one_of_ne_zero (by omega : fuel ≠ 0)
    obtain ⟨⟨hn, -⟩, hp⟩ := hp
    simp only [allocScan, listNext, hn, List.find?_cons]
    by_cases hb : n ≤ s.property b
    · simp [hb]
    · simp [hb, ih hp (by simpa using hf)]

theorem insertScan_eq {base h : ℕ} {xs ys : List ℕ}
    (hp : s.links.Path le ((xs ++ h :: ys).map .pageLink) .freeList)
    (hx : ∀ x ∈ xs, x < base) (hh : base < h) (hf : xs.length < fuel) :
    insertScan base fuel le s =
      some { s with links := listAddBefore s.links (.pageLink h) (.pageLink base) } := by
  induction xs generalizing le fuel with
  | nil =>
    obtain ⟨fuel, rfl⟩ := Nat.exists_eq_add_one_of_ne_zero (by omega : fuel ≠ 0)
    have hn : s.links.next le = .pageLink h := hp.1.1
    simp [insertScan, listNext, hn, hh]
  | cons x xs ih =>
    obtain ⟨fuel, rfl⟩ := Nat.exists_eq_add_one_of_ne_zero (by omega : fuel ≠ 0)
    obtain ⟨⟨hn, -⟩, hp⟩ := hp
    have hxb : ¬ base < x := Nat.not_lt.mpr (hx x (by simp)).le
    have hne : s.links.next (.pageLink x) ≠ .freeList := by
      cases xs with
      | nil => rw [hp.1.1]; exact fun h => Entry.noConfusion h
      | cons y xs => rw [hp.1.1]; exact fun h => Entry.noConfusion h
    simp only [insertScan, listNext, hn, hxb, hne, if_false]
    exact ih hp (fun z hz => hx z (by simp [hz])) (by simpa using hf)

end Scan

/-! ## The operations on a well-formed list -/

variable {lo n base k : ℕ} {s : State} {bs xs ys : List ℕ}

theorem resetPages_eq (h : ∀ p ∈ span base k, s.reserved p = false ∧ s.pageProperty p = false) :
    ∃ r, resetPages s base k = some { s with ref := r } := by
  induction k generalizing s base with
  | zero => exact ⟨s.ref, rfl⟩
  | succ k ih =>
    obtain ⟨hr, hp⟩ := h base (by simp)
    have hs : s.resetPage base = { s with ref := Function.update s.ref base 0 } := by
      have h₁ : Function.update s.reserved base false = s.reserved := by
        rw [← hr]; exact Function.update_eq_self _ _
      have h₂ : Function.update s.pageProperty base false = s.pageProperty := by
        rw [← hp]; exact Function.update_eq_self _ _
      simp only [PageArea.resetPage, h₁, h₂]
    have hr' : ∀ p ∈ span (base + 1) k, s.reserved p = false ∧ s.pageProperty p = false :=
      fun p hp => h p (by simp at hp ⊢; omega)
    obtain ⟨r, hk⟩ := ih (s := { s with ref := Function.update s.ref base 0 }) hr'
    exact ⟨r, by simp only [resetPages, hr, hp, hs, hk]; rfl⟩

theorem initPages_eq (h : ∀ p ∈ span base k, s.reserved p = true) :
    ∃ s', s.initPages base k = some s' ∧ s'.links = s.links ∧ s'.nrFree = s.nrFree ∧
      s'.npage = s.npage ∧
      (∀ p ∈ span base k, s'.reserved p = false ∧ s'.pageProperty p = false) ∧
      ∀ p ∉ span base k, s'.reserved p = s.reserved p ∧ s'.pageProperty p = s.pageProperty p := by
  induction k generalizing s base with
  | zero => exact ⟨s, rfl, rfl, rfl, rfl, by simp, by simp⟩
  | succ k ih =>
    have hr : ∀ p ∈ span (base + 1) k,
        ((s.resetPage base).setProperty base 0).reserved p = true := by
      intro p hp
      have hne : p ≠ base := by simp at hp; omega
      simpa [PageArea.resetPage, PageArea.setProperty, hne] using h p (by simp at hp ⊢; omega)
    obtain ⟨s', he, hl, hf, hn, hin, hout⟩ := ih hr
    refine ⟨s', by simp [PageArea.initPages, h base (by simp), he], hl, hf, hn, ?_, ?_⟩
    · intro p hp
      by_cases hpb : p ∈ span (base + 1) k
      · exact hin p hpb
      · have : p = base := by simp at hp hpb; omega
        subst this
        obtain ⟨h₁, h₂⟩ := hout p hpb
        simp [h₁, h₂, PageArea.resetPage, PageArea.setProperty]
    · intro p hp
      obtain ⟨h₁, h₂⟩ := hout p (by simp at hp ⊢; omega)
      have hne : p ≠ base := by rintro rfl; simp at hp
      simp [h₁, h₂, PageArea.resetPage, PageArea.setProperty, hne]

theorem uint_eq {m : ℕ} (h : m < 2 ^ 32) : uint m = m := Nat.mod_eq_of_lt h

namespace Wf

theorem setRef (w : Wf lo n s bs) (r : ℕ → ℤ) : Wf lo n { s with ref := r } bs :=
  ⟨w.ring, w.blocks, w.head_iff, w.unreserved, w.total, w.fits⟩

theorem nrFree_le (w : Wf lo n s bs) : s.nrFree ≤ n := by
  rw [← w.total]
  simpa using w.blocks.sum_le

theorem length_le (w : Wf lo n s bs) : bs.length ≤ s.npage := by
  have := w.blocks.length_le
  have := w.total
  have := w.nrFree_le
  have := w.fits
  omega

section Insert

variable (w : Wf lo n s (xs ++ ys)) (hk : 0 < k) (hn : n < 2 ^ 32) (hl : lo ≤ base)
  (hh : base + k ≤ lo + n) (hx : ∀ x ∈ xs, x + s.property x ≤ base) (hy : ∀ y ∈ ys, base + k ≤ y)
  (hf : s.nrFree + k ≤ n)

include w hk hn hl hh hx hy hf

theorem insert {L : Links Entry} (hL : L.Ring .freeList ((xs ++ base :: ys).map .pageLink)) :
    Wf lo n
      { s with
        property := Function.update s.property base (uint k)
        pageProperty := Function.update s.pageProperty base true
        nrFree := uint (s.nrFree + k)
        links := L } (xs ++ base :: ys) := by
  rw [uint_eq (by omega : k < 2 ^ 32), uint_eq (by omega : s.nrFree + k < 2 ^ 32)]
  refine ⟨hL, w.blocks.insert hk hx hy hl hh, ?_, w.unreserved, ?_, w.fits⟩
  · intro p h₁ h₂
    by_cases hpb : p = base
    · simp [hpb]
    · simpa [hpb] using w.head_iff p h₁ h₂
  · exact (w.blocks.sum_insert hk hx hy).trans (by rw [w.total])

/-- The loop leaves at an insertion when the list is empty or a listed block lies above. -/
theorem insertBlock_eq (ht : ys = [] → xs = []) :
    ∃ s', insertBlock s base k = some s' ∧ Wf lo n s' (xs ++ base :: ys) ∧
      s'.property = Function.update s.property base k := by
  have hu : uint k = k := uint_eq (by omega)
  have hb := pageLink_not_mem.mpr (w.blocks.not_mem_of_split hk hx hy)
  have r := w.ring
  cases ys with
  | nil =>
    obtain rfl := ht rfl
    refine ⟨_, ?_, w.insert hk hn hl hh hx hy hf (listAdd_ring r hb), by simp [hu]⟩
    have he : listEmpty s.links .freeList = true := (listEmpty_iff r).mpr rfl
    simp [insertBlock, PageArea.setProperty, PageArea.setPageProperty, he]
  | cons y ys =>
    have r' : s.links.Ring .freeList (xs.map .pageLink ++ .pageLink y :: ys.map .pageLink) := by
      simpa using r
    have hb' : Entry.pageLink base ∉
        Entry.freeList :: (xs.map Entry.pageLink ++ .pageLink y :: ys.map .pageLink) := by
      simpa using hb
    have hL := listAddBefore_ring_mem r' hb'
    refine ⟨_, ?_, w.insert hk hn hl hh hx hy hf (by simpa using hL), by simp [hu]⟩
    have he : listEmpty s.links .freeList = false := by
      rw [Bool.eq_false_iff]; intro h; simpa using (listEmpty_iff r).mp h
    have hlt : ∀ x ∈ xs, x < base := by
      intro x hxm
      have := hx x hxm
      have := w.blocks.pos x (by simp [hxm])
      omega
    have hyb : base < y := by
      have := hy y (by simp)
      omega
    have hlen : xs.length < s.npage + 3 := by
      have := w.length_le
      simp at this
      omega
    simp only [insertBlock, PageArea.setProperty, PageArea.setPageProperty, he]
    exact insertScan_eq (s := { s with
        property := Function.update s.property base (uint k)
        pageProperty := Function.update s.pageProperty base true
        nrFree := uint (s.nrFree + k) }) r.path hlt hyb hlen

end Insert

theorem merge {p q : ℕ} (w : Wf lo n s (xs ++ p :: q :: ys)) (hn : n < 2 ^ 32)
    (hpq : p + s.property p = q) :
    Wf lo n (mergeBlocks s p q) (xs ++ p :: ys) ∧
      cells (mergeBlocks s p q).property (xs ++ p :: ys) =
        cells s.property (xs ++ p :: q :: ys) := by
  have hsum : s.property p + s.property q ≤ n := by
    have := w.nrFree_le
    rw [← w.total] at this
    simp at this
    omega
  have hp : (mergeBlocks s p q).property =
      Function.update s.property p (s.property p + s.property q) :=
    congrArg (Function.update s.property p) (uint_eq (by omega))
  have r : s.links.Ring .freeList
      ((xs ++ [p]).map .pageLink ++ Entry.pageLink q :: ys.map .pageLink) := by
    simpa using w.ring
  refine ⟨⟨?_, ?_, ?_, w.unreserved, ?_, w.fits⟩, ?_⟩
  · simpa using listDel_ring r
  · exact hp ▸ w.blocks.merge hpq
  · intro z h₁ h₂
    by_cases hzq : z = q
    · subst hzq
      have hnd : ((xs ++ [p]) ++ z :: ys).Nodup := by simpa using w.blocks.nodup
      have hq := (List.nodup_cons.mp (List.nodup_middle.mp hnd)).1
      simpa using hq
    · simpa [hzq] using w.head_iff z h₁ h₂
  · exact hp ▸ (w.blocks.sum_merge hpq).trans w.total
  · exact hp ▸ w.blocks.cells_merge hpq

/-- Only the head that results may still be followed by a block without a gap. -/
theorem mergePrev (w : Wf lo n s (xs ++ base :: ys)) (hn : n < 2 ^ 32) :
    ∃ xs', Wf lo n (mergePrev s base).1 (xs' ++ (mergePrev s base).2 :: ys) ∧
      cells (mergePrev s base).1.property (xs' ++ (mergePrev s base).2 :: ys) =
        cells s.property (xs ++ base :: ys) ∧
      (Gapped s.property (xs ++ ys) → ∀ a ∈ xs' ++ (mergePrev s base).2 :: ys,
        a ≠ (mergePrev s base).2 → a + (mergePrev s base).1.property a ∉
          xs' ++ (mergePrev s base).2 :: ys) := by
  have r : s.links.Ring .freeList
      (xs.map .pageLink ++ Entry.pageLink base :: ys.map .pageLink) := by
    simpa using w.ring
  have keep : (∀ x ∈ xs, x + s.property x ≠ base) → Gapped s.property (xs ++ ys) →
      ∀ a ∈ xs ++ base :: ys, a ≠ base → a + s.property a ∉ xs ++ base :: ys := by
    intro hx g a ha hab he
    have ha' : a ∈ xs ∨ a ∈ ys := by
      simpa [hab] using ha
    have he' : a + s.property a = base ∨ a + s.property a ∈ xs ++ ys := by
      simp only [List.mem_append, List.mem_cons] at he ⊢
      tauto
    rcases he' with he | he
    · rcases ha' with ha' | ha'
      · exact hx a ha' he
      · have := w.blocks.le_right a ha'
        have := w.blocks.pos base (by simp)
        omega
    · exact g a (by simpa using ha') he
  rcases List.eq_nil_or_concat xs with rfl | ⟨zs, z, rfl⟩
  · have hp : s.links.prev (.pageLink base) = .freeList := by simpa using r.prev_mem
    have he : FirstFit.mergePrev s base = (s, base) := by
      simp only [FirstFit.mergePrev, listPrev, hp]
    rw [he]
    exact ⟨[], w, rfl, keep (by simp)⟩
  · have hp : s.links.prev (.pageLink base) = .pageLink z := by simpa using r.prev_mem
    by_cases hz : z + s.property z = base
    · have w' : Wf lo n s (zs ++ z :: base :: ys) := by simpa using w
      obtain ⟨hw, hc⟩ := w'.merge hn hz
      have he : FirstFit.mergePrev s base = (mergeBlocks s z base, z) := by
        simp only [FirstFit.mergePrev, listPrev, hp, if_pos hz]
      rw [he]
      refine ⟨zs, hw, by simpa using hc, ?_⟩
      intro g a ha haz
      have hs : (mergeBlocks s z base).property a = s.property a := Function.update_of_ne haz _ _
      rw [hs]
      have := g a (by simpa using ha)
      simpa using this
    · have he : FirstFit.mergePrev s base = (s, base) := by
        simp only [FirstFit.mergePrev, listPrev, hp, if_neg hz]
      rw [he]
      refine ⟨zs.concat z, w, rfl, keep ?_⟩
      intro x hx
      rw [List.concat_eq_append, List.mem_append, List.mem_singleton] at hx
      rcases hx with hx | rfl
      · have w' : Wf lo n s (zs ++ z :: base :: ys) := by simpa using w
        have := w'.blocks.left_le x hx
        have := w'.blocks.le_right base (by simp)
        have := w'.blocks.pos z (by simp)
        omega
      · exact hz

theorem mergeNext (w : Wf lo n s (xs ++ base :: ys)) (hn : n < 2 ^ 32) :
    ∃ ys', Wf lo n (mergeNext s base) (xs ++ base :: ys') ∧
      cells (mergeNext s base).property (xs ++ base :: ys') =
        cells s.property (xs ++ base :: ys) ∧
      ((∀ a ∈ xs ++ base :: ys, a ≠ base → a + s.property a ∉ xs ++ base :: ys) →
        Gapped (mergeNext s base).property (xs ++ base :: ys')) := by
  have r : s.links.Ring .freeList
      (xs.map .pageLink ++ Entry.pageLink base :: ys.map .pageLink) := by
    simpa using w.ring
  have keep : (∀ y ∈ ys, base + s.property base ≠ y) →
      (∀ a ∈ xs ++ base :: ys, a ≠ base → a + s.property a ∉ xs ++ base :: ys) →
      Gapped s.property (xs ++ base :: ys) := by
    intro hy g a ha
    by_cases hab : a = base
    · subst hab
      have hpos := w.blocks.pos a ha
      simp only [List.mem_append, List.mem_cons, not_or]
      refine ⟨fun hx => ?_, by omega, fun hm => hy _ hm rfl⟩
      have := w.blocks.left_le _ hx
      omega
    · exact g a ha hab
  cases ys with
  | nil =>
    have hp : s.links.next (.pageLink base) = .freeList := by simpa using r.next_mem
    have he : FirstFit.mergeNext s base = s := by
      simp only [FirstFit.mergeNext, listNext, hp]
    rw [he]
    exact ⟨[], w, rfl, keep (by simp)⟩
  | cons y ys =>
    have hp : s.links.next (.pageLink base) = .pageLink y := by simpa using r.next_mem
    by_cases hy : base + s.property base = y
    · have he : FirstFit.mergeNext s base = mergeBlocks s base y := by
        simp only [FirstFit.mergeNext, listNext, hp, if_pos hy]
      obtain ⟨hw, hc⟩ := w.merge hn hy
      rw [he]
      refine ⟨ys, hw, hc, ?_⟩
      intro g a ha hm
      have hsub : ∀ b ∈ xs ++ base :: ys, b ∈ xs ++ base :: y :: ys := by
        simp
        tauto
      by_cases hab : a = base
      · subst hab
        have hs : (mergeBlocks s a y).property a = s.property a + s.property y := by
          have := w.nrFree_le
          have ht := w.total
          simp at ht
          simp [uint_eq (by omega : s.property a + s.property y < 2 ^ 32)]
        rw [hs, ← add_assoc, hy] at hm
        have hya : y ≠ a := by
          have := w.blocks.pos a (by simp)
          omega
        exact g y (by simp) hya (hsub _ hm)
      · have hs : (mergeBlocks s base y).property a = s.property a :=
          Function.update_of_ne hab _ _
        rw [hs] at hm
        exact g a (hsub a ha) hab (hsub _ hm)
    · have he : FirstFit.mergeNext s base = s := by
        simp only [FirstFit.mergeNext, listNext, hp, if_neg hy]
      rw [he]
      refine ⟨y :: ys, w, rfl, keep ?_⟩
      intro z hz
      have w' : Wf lo n s ((xs ++ [base]) ++ y :: ys) := by simpa using w
      rcases List.mem_cons.mp hz with rfl | hz
      · exact hy
      · have := w'.blocks.le_right z hz
        have := w'.blocks.left_le base (by simp)
        have := w'.blocks.pos y (by simp)
        omega

/-- Taking the whole block at `page` out of the list. -/
theorem takeBlock_all {page : ℕ} (w : Wf lo n s (xs ++ page :: ys)) (hn : n < 2 ^ 32) :
    Wf lo n (takeBlock s page (s.property page)) (xs ++ ys) ∧
      cells (takeBlock s page (s.property page)).property (xs ++ ys) =
        cells s.property (xs ++ page :: ys) \ span page (s.property page) ∧
      (Gapped s.property (xs ++ page :: ys) →
        Gapped (takeBlock s page (s.property page)).property (xs ++ ys)) := by
  have r : s.links.Ring .freeList
      (xs.map .pageLink ++ Entry.pageLink page :: ys.map .pageLink) := by
    simpa using w.ring
  have hsum : ((xs ++ ys).map s.property).sum + s.property page = s.nrFree :=
    Blocks.sum_remove.symm.trans w.total
  have hle := w.nrFree_le
  have he : takeBlock s page (s.property page) =
      { s with
        links := listDel s.links (.pageLink page)
        nrFree := s.nrFree - s.property page
        pageProperty := Function.update s.pageProperty page false } := by
    simp [takeBlock, PageArea.clearPageProperty,
      uint_eq (by omega : s.nrFree - s.property page < 2 ^ 32)]
  rw [he]
  refine ⟨⟨by simpa using listDel_ring r, w.blocks.remove, ?_, w.unreserved, ?_, w.fits⟩,
    w.blocks.cells_remove, fun g a ha hm => ?_⟩
  · intro z h₁ h₂
    by_cases hz : z = page
    · subst hz
      have hq := (List.nodup_cons.mp (List.nodup_middle.mp w.blocks.nodup)).1
      simpa using hq
    · simpa [hz] using w.head_iff z h₁ h₂
  · show ((xs ++ ys).map s.property).sum = s.nrFree - s.property page
    omega
  · have hsub : (xs ++ ys).Sublist (xs ++ page :: ys) :=
      (List.sublist_cons_self page ys).append_left xs
    exact g a (hsub.subset ha) (hsub.subset hm)

/-- Taking a part of the block at `page`: the rest stays in its place. -/
theorem takeBlock_part {page : ℕ} (w : Wf lo n s (xs ++ page :: ys)) (hn : n < 2 ^ 32)
    (hk : 0 < k) (hp : k < s.property page) :
    Wf lo n (takeBlock s page k) (xs ++ (page + k) :: ys) ∧
      cells (takeBlock s page k).property (xs ++ (page + k) :: ys) =
        cells s.property (xs ++ page :: ys) \ span page k ∧
      (Gapped s.property (xs ++ page :: ys) →
        Gapped (takeBlock s page k).property (xs ++ (page + k) :: ys)) := by
  have r : s.links.Ring .freeList
      (xs.map .pageLink ++ Entry.pageLink page :: ys.map .pageLink) := by
    simpa using w.ring
  have hsum : ((xs ++ ys).map s.property).sum + s.property page = s.nrFree :=
    Blocks.sum_remove.symm.trans w.total
  have hle := w.nrFree_le
  have hm : 0 < s.property page - k := by omega
  have hx : ∀ x ∈ xs, x + s.property x ≤ page + k := fun x h =>
    (w.blocks.left_le x h).trans (Nat.le_add_right _ _)
  have hy : ∀ y ∈ ys, page + k + (s.property page - k) ≤ y := by
    intro y h
    have := w.blocks.le_right y h
    omega
  have hl := w.blocks.low page (by simp)
  have hh := w.blocks.high page (by simp)
  have wr := w.blocks.remove
  have hne := wr.not_mem_of_split hm hx hy
  have he : takeBlock s page k =
      { s with
        links := listAdd (listDel s.links (.pageLink page)) (s.links.prev (.pageLink page))
          (.pageLink (page + k))
        nrFree := s.nrFree - k
        property := Function.update s.property (page + k) (s.property page - k)
        pageProperty :=
          Function.update (Function.update s.pageProperty (page + k) true) page false } := by
    simp [takeBlock, PageArea.clearPageProperty, PageArea.setProperty, PageArea.setPageProperty, hp,
      listPrev, uint_eq (by omega : s.nrFree - k < 2 ^ 32),
      uint_eq (by omega : s.property page - k < 2 ^ 32)]
  rw [he]
  refine ⟨⟨?_, wr.insert hm hx hy (by omega) (by omega), ?_, w.unreserved, ?_, w.fits⟩, ?_, ?_⟩
  · have hb : Entry.pageLink (page + k) ∉
        Entry.freeList :: (xs.map Entry.pageLink ++ ys.map Entry.pageLink) := by
      simpa using hne
    have hr := listAdd_ring_getLast (listDel_ring r) hb
    rw [← r.prev_mem] at hr
    simpa using hr
  · intro z h₁ h₂
    have hq := (List.nodup_cons.mp (List.nodup_middle.mp w.blocks.nodup)).1
    by_cases hz : z = page
    · subst hz
      simpa [hk.ne'] using hq
    · by_cases hzk : z = page + k
      · simp [hzk, hk.ne']
      · simpa [hz, hzk] using w.head_iff z h₁ h₂
  · exact (wr.sum_insert hm hx hy).trans (by simp only; omega)
  · rw [wr.cells_insert hm hx hy, w.blocks.cells_remove]
    ext z
    simp only [Finset.mem_union, Finset.mem_sdiff, Finset.mem_Ico]
    constructor
    · rintro (⟨h₁, h₂⟩ | ⟨h₁, h₂⟩)
      · exact ⟨h₁, by omega⟩
      · exact ⟨mem_cells.mpr ⟨page, by simp, by omega, by omega⟩, by omega⟩
    · rintro ⟨h₁, h₂⟩
      by_cases h : page ≤ z ∧ z < page + s.property page
      · exact Or.inr (by omega)
      · exact Or.inl ⟨h₁, h⟩
  · intro g a ha hmem
    have hs : a ∈ xs ∨ a = page + k ∨ a ∈ ys := by simpa using ha
    by_cases hak : a = page + k
    · subst hak
      simp only [Function.update_self] at hmem
      have he : page + k + (s.property page - k) = page + s.property page := by omega
      rw [he] at hmem
      have := g page (by simp)
      have hne : s.property page ≠ k := by omega
      simp at this hmem
      tauto
    · simp only [Function.update_of_ne hak] at hmem
      have hao : a ∈ xs ∨ a ∈ ys := by tauto
      have hold : a + s.property a ∉ xs ++ page :: ys := g a (by
        simp only [List.mem_append, List.mem_cons]
        tauto)
      have hend : a + s.property a = page + k := by
        simp only [List.mem_append, List.mem_cons] at hmem hold
        tauto
      rcases hao with h | h
      · have := w.blocks.left_le a h
        omega
      · have := hy a h
        omega

end Wf

end UCore.FirstFit
