import UCore.Buddy.Blocks

/-! # Calls of the buddy allocator

A request takes a block of its order out of the free pages, a free puts it back.
-/

namespace UCore.Buddy

open Library Library.Dyadic Library.PerfectTree

variable {base n i j k o p q r x : ℕ} {s s' : State} {free : ℕ → List ℕ} {D D' : ℕ → Prop}

/-! ## Orders -/

theorem getOrderFrom_spec {fuel : ℕ} (h : getOrderFrom n fuel o = some r)
    (ho : ∀ j < o, ∃ z, shift j = some z ∧ z < n) :
    (∀ j < r, ∃ z, shift j = some z ∧ z < n) ∧ ∃ z, shift r = some z ∧ n ≤ z := by
  induction fuel generalizing o with
  | zero => exact absurd h.symm (Option.some_ne_none r)
  | succ fuel ih =>
    obtain ⟨z, hz, hr⟩ := Option.bind_eq_some_iff.mp h
    split at hr
    · apply ih hr
      intro j hj
      by_cases hjo : j = o
      · exact ⟨z, hjo ▸ hz, ‹_›⟩
      · exact ho j (by omega)
    · obtain rfl := Option.some.inj hr
      exact ⟨ho, z, hz, by omega⟩

theorem shift_of_le (ho : o ≤ maxOrder) : shift o = some (2 ^ o) := by
  have : o ≤ 14 := ho
  rw [shift, if_pos (by omega)]

theorem clog_of_getOrder (h : getOrder n = some o) (ho : o ≤ maxOrder) : o = Nat.clog 2 n := by
  obtain ⟨h₁, z, hz, hle⟩ := getOrderFrom_spec h (by omega)
  rw [shift_of_le ho] at hz
  obtain rfl := Option.some.inj hz
  apply le_antisymm _ (Nat.clog_le_of_le_pow hle)
  rcases Nat.eq_zero_or_pos o with rfl | hpos
  · exact Nat.zero_le _
  · obtain ⟨z, hz, hlt⟩ := h₁ (o - 1) (by omega)
    rw [shift_of_le (by omega)] at hz
    obtain rfl := Option.some.inj hz
    have := (Nat.lt_clog_iff_pow_lt Nat.one_lt_two).mpr hlt
    omega

theorem getOrder_total (hn : n ≤ 2 ^ 64 - 2 ^ 31) : ∃ o, getOrder n = some o := by
  have key : ∀ fuel o, o + fuel = 33 → o ≤ 31 → ∃ r, getOrderFrom n fuel o = some r := by
    intro fuel
    induction fuel with
    | zero => omega
    | succ fuel ih =>
      intro o hf ho
      rw [getOrderFrom, shift]
      by_cases h31 : o < 31
      · rw [if_pos h31, Option.bind_some]
        split
        · exact ih (o + 1) (by omega) (by omega)
        · exact ⟨o, rfl⟩
      · rw [if_neg h31, if_pos (by omega), Option.bind_some, if_neg (by omega)]
        exact ⟨o, rfl⟩
  exact key 33 0 rfl (by omega)

theorem findOrder_spec {fuel : ℕ} (h : findOrder s fuel o = some r) :
    o ≤ r ∧ r < o + fuel ∧ listEmpty s.links (.freeList r) = false := by
  induction fuel generalizing o with
  | zero => exact absurd h.symm (Option.some_ne_none r)
  | succ fuel ih =>
    simp only [findOrder] at h
    split at h
    · obtain ⟨h₁, h₂, h₃⟩ := ih h
      exact ⟨by omega, by omega, h₃⟩
    · rename_i hne
      obtain rfl := Option.some.inj h
      exact ⟨le_rfl, by omega, by simpa using hne⟩

/-! ## Requests -/

theorem Inv.congr (h : Inv base n s free D) (hD : ∀ x, D' x ↔ D x) : Inv base n s free D' := by
  have : D' = D := funext fun x => propext (hD x)
  rwa [this]

theorem addBlock_clearPageProperty (hne : p ≠ q) :
    (s.addBlock p i).clearPageProperty q = State.addBlock (s.clearPageProperty q) p i := by
  simp only [State.addBlock, State.link, PageArea.setPageProperty, PageArea.setProperty,
    PageArea.clearPageProperty, Function.update_comm hne]

/-- The right halves of the block become free down to the order of the request. -/
theorem Inv.splitBlock (h : Inv base n (s.clearPageProperty p) free D) (hp : p = q * 2 ^ k)
    (ho : o ≤ k) (hk : k ≤ maxOrder)
    (hD : ∀ x, x / 2 ^ k = q → ¬ D x ∧ base ≤ x ∧ x < base + n) :
    ∃ free', Inv base n ((splitBlock p o k s).clearPageProperty p) free'
      (fun x => D x ∨ x / 2 ^ k = q ∧ x / 2 ^ o ≠ p / 2 ^ o) := by
  have hstop : o = k → ∀ x, (D x ∨ x / 2 ^ k = q ∧ x / 2 ^ o ≠ p / 2 ^ o) ↔ D x := by
    rintro rfl x
    rw [hp, mul_div_pow]
    tauto
  induction k generalizing s free D q with
  | zero => exact ⟨free, h.congr (hstop (by omega))⟩
  | succ k ih =>
    simp only [Buddy.splitBlock]
    split
    · have hpk : p = 2 * q * 2 ^ k := by rw [hp, pow_succ]; ring
      have hb : p + 2 ^ k = (2 * q + 1) * 2 ^ k := by rw [hpk]; ring
      have hne : (2 * q + 1) * 2 ^ k ≠ p := by
        have := Nat.two_pow_pos k
        omega
      rw [hb]
      have hin : ∀ x, x / 2 ^ k = 2 * q ∨ x / 2 ^ k = 2 * q + 1 → x / 2 ^ (k + 1) = q :=
        fun x hx => div_pow_succ_iff.mpr hx
      have h' := h.addBlock (i := k) (q := 2 * q + 1) (by omega)
        (fun x hx => hD x (hin x (.inr hx)))
        fun _ hmem => by
          rw [mate_double_add_one, ← hpk] at hmem
          exact (hD p (by rw [hp, mul_div_pow])).1 (h.of_mem (by omega) hmem)
      rw [← addBlock_clearPageProperty hne] at h'
      obtain ⟨free', hi⟩ := ih h' hpk (by omega) (by omega) (by
        intro x hx
        obtain ⟨h₁, h₂⟩ := hD x (hin x (.inl hx))
        refine ⟨?_, h₂⟩
        rintro (hx' | hx')
        · exact h₁ hx'
        · omega) (by
        rintro rfl x
        rw [hpk, mul_div_pow]
        tauto)
      refine ⟨free', hi.congr ?_⟩
      intro x
      rw [div_pow_succ_iff]
      have hside : x / 2 ^ k = 2 * q + 1 → x / 2 ^ o ≠ p / 2 ^ o := by
        intro hx he
        have := div_pow_congr he (by omega : o ≤ k)
        rw [hx, hpk, mul_div_pow] at this
        omega
      tauto
    · exact ⟨free, h.congr (hstop (by omega))⟩

/-- What a request returns. -/
theorem Inv.alloc (h : Inv base n s free D) (hk : 0 < k) (ho : getOrder k = some o) :
    buddyAllocPages s k = some (none, s) ∨
      ∃ p s' free', buddyAllocPages s k = some (some p, s') ∧
        o = Nat.clog 2 k ∧ o ≤ maxOrder ∧ 2 ^ o ∣ p ∧ (∀ x, x / 2 ^ o = p / 2 ^ o → D x) ∧
        Inv base n s' free' fun x => D x ∧ x / 2 ^ o ≠ p / 2 ^ o := by
  unfold buddyAllocPages
  rw [if_pos hk, ho, Option.bind_some]
  by_cases hmax : maxOrder < o
  · exact .inl (if_pos hmax)
  · rw [if_neg hmax]
    have hom : o ≤ maxOrder := Nat.le_of_not_lt hmax
    cases hf : findOrder s (maxOrder + 1 - o) o with
    | none => exact .inl rfl
    | some c =>
      right
      obtain ⟨hoc, hc, hne⟩ := findOrder_spec hf
      have hcm : c ≤ maxOrder := by omega
      have hring := h.ring hcm
      obtain ⟨p, rest, hl⟩ : ∃ p rest, free c = p :: rest := by
        apply List.exists_cons_of_ne_nil
        intro hnil
        rw [hnil, List.map_nil] at hring
        rw [(listEmpty_iff hring).mpr rfl] at hne
        exact Bool.noConfusion hne
      have hnext : listNext s.links (.freeList c) = .pageLink p := by
        rw [hl] at hring
        exact hring.next_head
      have hpmem : p ∈ free c := by simp [hl]
      obtain ⟨q, rfl⟩ : ∃ q, p = q * 2 ^ c := by
        obtain ⟨q, hq⟩ := (h.head c hcm p hpmem).1
        exact ⟨q, by rw [hq, mul_comm]⟩
      have hfull := h.reduced.full ⟨hcm, hpmem⟩
      have hu := h.unlink hcm hpmem
      obtain ⟨free', hi⟩ := hu.splitBlock rfl hoc hcm (by
        intro x hx
        exact ⟨fun hx' => hx'.2 hx, h.within x (hfull x hx)⟩)
      refine ⟨q * 2 ^ c, _, free', by simp only [hnext], clog_of_getOrder ho hom, hom,
        (pow_dvd_pow 2 hoc).trans (Nat.dvd_mul_left _ _), ?_, hi.congr ?_⟩
      · intro x hx
        apply hfull
        rw [div_pow_congr hx hoc, mul_div_pow]
      · intro x
        have hin : x / 2 ^ c = q → D x := hfull x
        have hother : x / 2 ^ c ≠ q → x / 2 ^ o ≠ q * 2 ^ c / 2 ^ o := by
          intro hx he
          apply hx
          rw [div_pow_congr he hoc, mul_div_pow]
        tauto

/-! ## Frees -/

theorem Inv.resetPages {m : ℕ} (h : Inv base n s free D)
    (hD : ∀ x, p ≤ x → x < p + m → ¬ D x ∧ base ≤ x ∧ x < base + n) :
    Inv base n (resetPages s p m) free D := by
  induction m generalizing s p with
  | zero => exact h
  | succ m ih =>
    obtain ⟨hp, hb, hn⟩ := hD p le_rfl (by omega)
    apply ih _ fun x hx hx' => hD x (by omega) (by omega)
    have hout : ∀ i ≤ maxOrder, ∀ q ∈ free i, q ≠ p := by
      rintro i hi q hq rfl
      exact hp (h.of_mem hi hq)
    refine ⟨h.edge, h.mapped, h.fits, h.rings, ?_, ?_, ?_, h.count, h.reduced, h.within⟩
    · intro i hi q hq
      simpa [hout i hi q hq] using h.head i hi q hq
    · intro q hq hq' hf
      by_cases hqp : q = p
      · simp [hqp] at hf
      · exact h.listed q hq hq' (by simpa [hqp] using hf)
    · intro q hq
      by_cases hqp : q = p
      · subst hqp
        simp [hb, hn]
      · simpa [hqp] using h.reserved q hq

theorem Inv.within_block (h : Inv base n s free D)
    (hD : ∀ x, x / 2 ^ o = q → ¬ D x ∧ base ≤ x ∧ x < base + n) :
    base ≤ q * 2 ^ o ∧ (q + 1) * 2 ^ o ≤ s.npage := by
  have hpos := Nat.two_pow_pos o
  have hlast : (q * 2 ^ o + (2 ^ o - 1)) / 2 ^ o = q := by
    rw [mul_comm, Nat.mul_add_div hpos, Nat.div_eq_of_lt (by omega), Nat.add_zero]
  have h₁ := (hD _ mul_div_pow).2.1
  have h₂ := (hD _ hlast).2.2
  have h₃ := h.fits
  rw [add_mul, one_mul]
  omega

theorem Edge.mate_lt {m : ℕ} (h : Edge base m) (ho : o < maxOrder) (hb : base ≤ q * 2 ^ o)
    (hq : (q + 1) * 2 ^ o ≤ m) : mate q * 2 ^ o < m := by
  have hpos := Nat.two_pow_pos o
  by_contra hle
  have hmate : mate q * 2 ^ o = (q + 1) * 2 ^ o ∧ q % 2 = 0 := by
    unfold mate at *
    split at hle
    · exact ⟨by rw [if_pos ‹_›], ‹_›⟩
    · have : (q - 1) * 2 ^ o ≤ q * 2 ^ o := Nat.mul_le_mul_right _ (Nat.sub_le q 1)
      rw [add_mul] at hq
      omega
  obtain ⟨hm, heven⟩ := hmate
  obtain rfl : m = (q + 1) * 2 ^ o := by omega
  have hodd : ¬ 2 ^ (o + 1) ∣ (q + 1) * 2 ^ o := by
    rw [pow_succ']
    intro hdvd
    have := Nat.dvd_of_mul_dvd_mul_right hpos hdvd
    omega
  have := h o ho (Nat.dvd_mul_left _ _) hodd
  rw [add_mul, one_mul] at this
  omega

/-- The block with its free mates taken is one block, which the loop returns. -/
theorem Inv.mergeBlock (fuel : ℕ) (h : Inv base n s free D) (ho : o ≤ maxOrder)
    (hf : maxOrder < fuel + o) (hD : ∀ x, x / 2 ^ o = q → ¬ D x ∧ base ≤ x ∧ x < base + n) :
    ∃ s' q' o' free' D', mergeBlock fuel s (q * 2 ^ o) o = some (s', q' * 2 ^ o', o') ∧
      Inv base n s' free' D' ∧ o' ≤ maxOrder ∧
      (o' < maxOrder → mate q' * 2 ^ o' ∉ free' o') ∧
      (∀ x, x / 2 ^ o' = q' → ¬ D' x ∧ base ≤ x ∧ x < base + n) ∧
      ∀ x, (D' x ∨ x / 2 ^ o' = q') ↔ (D x ∨ x / 2 ^ o = q) := by
  induction fuel generalizing s o q free D with
  | zero => omega
  | succ fuel ih =>
    rw [Buddy.mergeBlock]
    by_cases hlt : o < maxOrder
    · rw [if_pos hlt, ← mate_mul_pow]
      have hbound : mate q * 2 ^ o < s.npage :=
        h.edge.mate_lt hlt (h.within_block hD).1 (h.within_block hD).2
      rw [if_neg (by omega)]
      by_cases hmem : mate q * 2 ^ o ∈ free o
      · rw [if_pos ((h.mem_iff ho hbound).mpr hmem)]
        have hfull := h.reduced.full ⟨ho, hmem⟩
        have hbase : (if mate q * 2 ^ o < q * 2 ^ o then mate q * 2 ^ o else q * 2 ^ o) =
            q / 2 * 2 ^ (o + 1) := by
          have hlt' : mate q * 2 ^ o < q * 2 ^ o ↔ mate q < q :=
            Nat.mul_lt_mul_right (Nat.two_pow_pos o)
          simp only [hlt']
          rw [← ite_mul, pow_succ', ← mul_assoc]
          congr 1
          unfold mate
          split_ifs <;> omega
        rw [hbase]
        have hpair : ∀ x, x / 2 ^ (o + 1) = q / 2 ↔ x / 2 ^ o = q ∨ x / 2 ^ o = mate q := by
          intro x
          rw [div_two_pow_succ]
          constructor
          · exact fun hx => eq_or_mate hx.symm
          · rintro (hx | hx)
            · rw [hx]
            · rw [hx, mate_half]
        obtain ⟨s', q', o', free', D', h₁, h₂, h₃, h₄, h₅, h₆⟩ :=
          ih (h.unlink ho hmem) (q := q / 2) (o := o + 1) hlt (by omega) (by
            intro x hx
            rcases (hpair x).mp hx with hx | hx
            · exact ⟨fun hx' => (hD x hx).1 hx'.1, (hD x hx).2⟩
            · exact ⟨fun hx' => hx'.2 hx, h.within x (hfull x hx)⟩)
        refine ⟨s', q', o', free', D', h₁, h₂, h₃, h₄, h₅, ?_⟩
        intro x
        rw [h₆ x, hpair x]
        have := hfull x
        tauto
      · rw [if_neg fun ht => hmem ((h.mem_iff ho hbound).mp ht)]
        exact ⟨s, q, o, free, D, rfl, h, ho, fun _ => hmem, hD, fun _ => Iff.rfl⟩
    · rw [if_neg hlt]
      exact ⟨s, q, o, free, D, rfl, h, ho, fun hlt' => absurd hlt' hlt, hD, fun _ => Iff.rfl⟩

theorem Inv.freePages (h : Inv base n s free D) (hk : 0 < k) (hg : getOrder k = some o)
    (ho : o ≤ maxOrder) (hp : 2 ^ o ∣ p)
    (hD : ∀ x, x / 2 ^ o = p / 2 ^ o → ¬ D x ∧ base ≤ x ∧ x < base + n) :
    ∃ s' free', buddyFreePages s p k = some s' ∧
      Inv base n s' free' fun x => D x ∨ x / 2 ^ o = p / 2 ^ o := by
  have hdvd := hp
  obtain ⟨q, rfl⟩ : ∃ q, p = q * 2 ^ o := by
    obtain ⟨q, hq⟩ := hp
    exact ⟨q, by rw [hq, mul_comm]⟩
  have hblock : ∀ x, q * 2 ^ o ≤ x → x < q * 2 ^ o + 2 ^ o → x / 2 ^ o = q := by
    intro x hx hx'
    rw [(div_pow_eq_iff hdvd).mpr ⟨hx, hx'⟩, mul_div_pow]
  rw [mul_div_pow] at hD ⊢
  have hlast := hD (q * 2 ^ o + (2 ^ o - 1))
    (hblock _ (by omega) (by have := Nat.two_pow_pos o; omega))
  have hfits : ¬ (maxOrder < o ∨ s.npage < q * 2 ^ o + 2 ^ o) := by
    have := h.fits
    have := Nat.two_pow_pos o
    omega
  have hreset := h.resetPages fun x hx hx' => hD x (hblock x hx hx')
  obtain ⟨s', q', o', free', D', h₁, h₂, h₃, h₄, h₅, h₆⟩ :=
    Inv.mergeBlock (maxOrder + 1) hreset ho (by omega) hD
  refine ⟨_, _, ?_, (h₂.addBlock h₃ h₅ h₄).congr fun x => (h₆ x).symm⟩
  rw [buddyFreePages, if_pos hk, hg, Option.bind_some, if_neg hfits, h₁]
  rfl

end UCore.Buddy
