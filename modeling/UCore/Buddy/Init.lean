import UCore.Buddy.Calls

/-! # Initialisation of the buddy allocator

The blocks that `buddy_init_memmap` builds are as large as the alignment and the
end of the range permit, so no two of them are buddies.
-/

namespace UCore.Buddy

open Library Library.Dyadic Library.PerfectTree

variable {base b m n i j k o p q r x : ℕ} {s s' : State} {free : ℕ → List ℕ} {D : ℕ → Prop}

theorem buddyInit_spec (s : State) : (buddyInit s).npage = s.npage ∧
    (buddyInit s).reserved = s.reserved ∧
    ∀ i ≤ maxOrder, (buddyInit s).links.Ring (.freeList i) [] ∧ (buddyInit s).nrFree i = 0 := by
  unfold buddyInit
  have key : ∀ m, ∃ s', (List.range m).foldl (fun s i =>
      { s with
        links := listInit s.links (.freeList i)
        nrFree := Function.update s.nrFree i 0 }) s = s' ∧ s'.npage = s.npage ∧
      s'.reserved = s.reserved ∧
      ∀ i < m, s'.links.Ring (.freeList i) [] ∧ s'.nrFree i = 0 := by
    intro m
    induction m with
    | zero => exact ⟨s, rfl, rfl, rfl, by omega⟩
    | succ m ih =>
      obtain ⟨s', he, hn, hr, hi⟩ := ih
      rw [List.range_succ, List.foldl_append, he]
      refine ⟨_, rfl, hn, hr, ?_⟩
      intro i hlt
      by_cases him : i = m
      · subst him
        exact ⟨listInit_ring, by simp⟩
      · have hne : Entry.freeList i ≠ .freeList m := fun h => him (Entry.freeList.inj h)
        obtain ⟨hring, hcount⟩ := hi i (by omega)
        refine ⟨hring.congr ?_ ?_, by simpa [him] using hcount⟩
        · intro y hy
          obtain rfl := List.mem_singleton.mp hy
          exact (listInit_congr hne).1
        · intro y hy
          obtain rfl := List.mem_singleton.mp hy
          exact (listInit_congr hne).2
  obtain ⟨s', he, hn, hr, hi⟩ := key (maxOrder + 1)
  rw [he]
  exact ⟨hn, hr, fun i hm => hi i (by omega)⟩

theorem initPages_spec (hr : ∀ x, p ≤ x → x < p + n → s.reserved x = true) :
    ∃ s', s.initPages p n = some s' ∧ s'.npage = s.npage ∧ s'.links = s.links ∧
      s'.nrFree = s.nrFree ∧
      (∀ x, s'.reserved x = true ↔ s.reserved x = true ∧ ¬ (p ≤ x ∧ x < p + n)) ∧
      ∀ x, p ≤ x → x < p + n → s'.pageProperty x = false := by
  have key : ∀ n p (s : State), (∀ x, p ≤ x → x < p + n → s.reserved x = true) →
      ∃ s', s.initPages p n = some s' ∧ s'.npage = s.npage ∧ s'.links = s.links ∧
        s'.nrFree = s.nrFree ∧
        (∀ x, s'.reserved x = true ↔ s.reserved x = true ∧ ¬ (p ≤ x ∧ x < p + n)) ∧
        (∀ x, p ≤ x → x < p + n → s'.pageProperty x = false) ∧
        ∀ x < p, s'.pageProperty x = s.pageProperty x := by
    intro n
    induction n with
    | zero => exact fun p s _ => ⟨s, rfl, rfl, rfl, rfl, by intro x; simp, by omega, by simp⟩
    | succ n ih =>
      intro p s hr
      rw [PageArea.initPages, if_pos (hr p le_rfl (by omega))]
      obtain ⟨s', he, h₁, h₂, h₃, h₄, h₅, h₆⟩ :=
        ih (p + 1) ((s.resetPage p).setProperty p 0) (by
          intro x hx hx'
          have hne : x ≠ p := by omega
          simpa [hne] using hr x (by omega) (by omega))
      refine ⟨s', he, h₁, h₂, h₃, ?_, ?_, ?_⟩
      · intro x
        rw [h₄ x]
        by_cases hxp : x = p
        · simp [hxp]
        · simp [hxp]
          omega
      · intro x hx hx'
        by_cases hxp : x = p
        · rw [hxp, h₆ p (by omega)]
          simp
        · exact h₅ x (by omega) (by omega)
      · intro x hx
        have hne : x ≠ p := by omega
        rw [h₆ x (by omega)]
        simp [hne]
  obtain ⟨s', he, h₁, h₂, h₃, h₄, h₅, -⟩ := key n p s hr
  exact ⟨s', he, h₁, h₂, h₃, h₄, h₅⟩

theorem fitOrder_spec (base : ℕ) (hn : 0 < n) (m : ℕ) :
    fitOrder base n m ≤ m ∧ 2 ^ fitOrder base n m ≤ n ∧ 2 ^ fitOrder base n m ∣ base ∧
      ∀ o, fitOrder base n m < o → o ≤ m → 2 ^ o ∣ base → n < 2 ^ o := by
  induction m with
  | zero => exact ⟨le_rfl, hn, Nat.one_dvd base, fun o h₁ h₂ => by omega⟩
  | succ m ih =>
    obtain ⟨h₁, h₂, h₃, h₄⟩ := ih
    have hmod : base &&& (2 ^ (m + 1) - 1) = 0 ↔ 2 ^ (m + 1) ∣ base := by
      rw [Nat.and_two_pow_sub_one_eq_mod, Nat.dvd_iff_mod_eq_zero]
    simp only [fitOrder, hmod]
    split
    · rename_i hfit
      exact ⟨le_rfl, hfit.1, hfit.2, fun o hlt hle => by omega⟩
    · rename_i hfit
      refine ⟨by omega, h₂, h₃, ?_⟩
      intro o hlt hle hdvd
      by_cases ho : o = m + 1
      · subst ho
        by_contra hc
        exact hfit ⟨by omega, hdvd⟩
      · exact h₄ o hlt (by omega) hdvd

/-- The blocks of the range. -/
theorem Inv.initBlocks {fuel : ℕ} (h : Inv base n s free fun x => base ≤ x ∧ x < b)
    (hbase : base ≤ b) (hb : b + m = base + n) (hf : m ≤ fuel)
    (hend : ∀ i < maxOrder, ∀ p ∈ free i, 2 ^ (i + 1) ∣ p → base + n < p + 2 ^ (i + 1)) :
    ∃ s' free', initBlocks fuel s b m = some s' ∧
      Inv base n s' free' fun x => base ≤ x ∧ x < base + n := by
  induction fuel generalizing s free b m with
  | zero =>
    obtain rfl : m = 0 := by omega
    obtain rfl : b = base + n := by omega
    exact ⟨s, free, rfl, h⟩
  | succ fuel ih =>
    cases m with
    | zero =>
      obtain rfl : b = base + n := by omega
      exact ⟨s, free, rfl, h⟩
    | succ m =>
      obtain ⟨ho, hfit, ⟨q, hq⟩, hmax⟩ := fitOrder_spec b (Nat.succ_pos m) maxOrder
      rw [Buddy.initBlocks]
      set o := fitOrder b (m + 1) maxOrder
      rw [mul_comm] at hq
      have hpos := Nat.two_pow_pos o
      have hblock : ∀ x, x / 2 ^ o = q ↔ b ≤ x ∧ x < b + 2 ^ o := by
        intro x
        rw [← div_pow_eq_iff (hq ▸ Nat.dvd_mul_left _ _), hq, mul_div_pow]
      have hmate : o < maxOrder → mate q * 2 ^ o ∉ free o := by
        intro hlt hmem
        have hbelow := (h.of_mem ho hmem).2
        by_cases heven : q % 2 = 0
        · rw [mate, if_pos heven, add_mul, ← hq] at hbelow
          omega
        · rw [mate, if_neg heven] at hmem
          obtain ⟨r, hr⟩ : ∃ r, q = 2 * r + 1 := ⟨q / 2, by omega⟩
          have hp : (q - 1) * 2 ^ o = r * 2 ^ (o + 1) := by
            rw [hr, Nat.add_sub_cancel, pow_succ]
            ring
          have hbp : b = r * 2 ^ (o + 1) + 2 ^ o := by
            rw [hq, hr, pow_succ]
            ring
          rw [hp] at hmem
          have hlast := hend o hlt _ hmem (Nat.dvd_mul_left _ _)
          rw [pow_succ] at hlast hbp
          omega
      have h' := h.addBlock ho (fun x hx => by
        have := (hblock x).mp hx
        omega) hmate
      rw [← hq] at h'
      apply ih (b := b + 2 ^ o)
      · apply h'.congr
        intro x
        rw [hblock x]
        omega
      · omega
      · omega
      · omega
      · intro i hi p hp hdvd
        by_cases hio : i = o
        · subst hio
          rw [Function.update_self] at hp
          rcases List.mem_cons.mp hp with rfl | hp
          · have := hmax (o + 1) (by omega) hi hdvd
            omega
          · exact hend _ hi p hp hdvd
        · rw [Function.update_of_ne hio] at hp
          exact hend i hi p hp hdvd

theorem reduced_empty : Reduced maxOrder (fun _ => False) (Listed fun _ => []) := by
  have hno : ∀ i q, ¬ Listed (fun _ => []) i q := fun i q h => List.not_mem_nil h.2
  constructor
  · exact fun i q h => absurd h (hno i q)
  · exact fun x => ⟨False.elim, fun ⟨i, h⟩ => hno i _ h⟩
  · exact fun x i j h => absurd h (hno i _)
  · exact fun i q _ h => absurd h (hno i q)

theorem Inv.empty (hw : Edge base s.npage) (hm : kernbase + s.npage * sizeofPage ≤ 2 ^ 64)
    (hfits : base + n ≤ s.npage)
    (hlists : ∀ i ≤ maxOrder, s.links.Ring (.freeList i) [] ∧ s.nrFree i = 0)
    (hf : ∀ p, base ≤ p → p < base + n → s.pageProperty p = false)
    (hr : ∀ p < s.npage, s.reserved p = true ↔ ¬ (base ≤ p ∧ p < base + n)) :
    Inv base n s (fun _ => []) fun _ => False := by
  refine ⟨hw, hm, hfits, ?_, fun i _ p hp => absurd hp List.not_mem_nil, ?_, hr, ?_, reduced_empty,
    fun x => False.elim⟩
  · constructor
    · exact fun i => (hlists i (Nat.le_of_lt_succ i.isLt)).1
    · intro i j hij y hy hy'
      obtain rfl := List.mem_singleton.mp hy
      have := Entry.freeList.inj (List.mem_singleton.mp hy')
      exact hij (Fin.ext this)
  · intro p hp hp' ht
    rw [hf p hp hp'] at ht
    exact Bool.noConfusion ht
  · exact fun i hi => (hlists i hi).2

theorem buddyInitMemmap_inv (hw : Edge base s.npage)
    (hm : kernbase + s.npage * sizeofPage ≤ 2 ^ 64) (hn : 0 < n) (hfits : base + n ≤ s.npage)
    (hr : ∀ p < s.npage, s.reserved p = true) :
    ∃ s' free, buddyInitMemmap (buddyInit s) base n = some s' ∧
      Inv base n s' free fun x => base ≤ x ∧ x < base + n := by
  obtain ⟨hnp, hres, hlists⟩ := buddyInit_spec s
  obtain ⟨s₁, he, h₁, h₂, h₃, h₄, h₅⟩ := initPages_spec (s := buddyInit s) (p := base) (n := n) (by
    intro x _ hx
    rw [hres]
    exact hr x (by omega))
  have hnp₁ : s₁.npage = s.npage := h₁.trans hnp
  rw [← hnp₁] at hw hm hfits
  have h : Inv base n s₁ (fun _ => []) fun _ => False := by
    apply Inv.empty hw hm hfits
    · rw [h₂, h₃]
      exact hlists
    · exact h₅
    · intro p hp
      rw [h₄ p, hres]
      exact and_iff_right (hr p (by omega))
  have h : Inv base n s₁ (fun _ => []) fun x => base ≤ x ∧ x < base := h.congr fun x => by
    simp only [iff_false]
    omega
  obtain ⟨s', free, hs', hi⟩ := h.initBlocks le_rfl rfl le_rfl fun i _ p hp =>
    absurd hp List.not_mem_nil
  refine ⟨s', free, ?_, hi⟩
  rw [buddyInitMemmap, if_pos hn, he]
  exact hs'

end UCore.Buddy
