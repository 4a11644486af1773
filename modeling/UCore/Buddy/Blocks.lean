import UCore.Buddy.Model
import UCore.Library.Dyadic

/-! # Free blocks of the buddy allocator

The free lists hold the heads of aligned blocks, and the flags and properties of
the descriptors tell the same blocks. One lemma says what it means to add a
block, another what it means to take one out.
-/

namespace UCore.Buddy

open Library Library.Dyadic Library.PerfectTree

variable {base n i j k o p q r x : ℕ} {s : State} {free : ℕ → List ℕ} {D : ℕ → Prop}

/-- Block `q` of order `i` is in the lists. -/
def Listed (free : ℕ → List ℕ) (i q : ℕ) : Prop := i ≤ maxOrder ∧ q * 2 ^ i ∈ free i

/-- An array of `m` descriptors ends with a block whose mate lies beyond it, unless `m` is a
multiple of the largest blocks. The managed range from `base` on does not contain that block. -/
def Edge (base m : ℕ) : Prop :=
  ∀ i < maxOrder, 2 ^ i ∣ m → ¬ 2 ^ (i + 1) ∣ m → m < base + 2 ^ i

theorem Edge.of_dvd {m : ℕ} (h : 2 ^ maxOrder ∣ m) : Edge base m :=
  fun _ hi _ hn => absurd ((pow_dvd_pow 2 hi).trans h) hn

/-- The lists, the flags and the counts describe free blocks that make up `D`. -/
structure Inv (base n : ℕ) (s : State) (free : ℕ → List ℕ) (D : ℕ → Prop) : Prop where
  edge : Edge base s.npage
  mapped : kernbase + s.npage * sizeofPage ≤ 2 ^ 64
  fits : base + n ≤ s.npage
  rings : s.links.Rings (fun i : Fin (maxOrder + 1) => .freeList i) fun i =>
    (free i).map .pageLink
  head : ∀ i ≤ maxOrder, ∀ p ∈ free i, 2 ^ i ∣ p ∧ s.pageProperty p = true ∧ s.property p = 2 ^ i
  listed : ∀ p, base ≤ p → p < base + n → s.pageProperty p = true → ∃ i ≤ maxOrder, p ∈ free i
  reserved : ∀ p < s.npage, s.reserved p = true ↔ ¬ (base ≤ p ∧ p < base + n)
  count : ∀ i ≤ maxOrder, s.nrFree i = uint (free i).length
  reduced : Reduced maxOrder D (Listed free)
  within : ∀ x, D x → base ≤ x ∧ x < base + n

theorem uint_two_pow (hi : i ≤ maxOrder) : uint (2 ^ i) = 2 ^ i := by
  apply Nat.mod_eq_of_lt
  exact Nat.pow_lt_pow_right Nat.one_lt_two (hi.trans_lt (by decide))

theorem uint_succ (h : k = uint j) : uint (k + 1) = uint (j + 1) := by
  unfold uint at *
  omega

theorem uint_pred (h : k = uint j) (hj : 0 < j) : uint (k + (2 ^ 32 - 1)) = uint (j - 1) := by
  unfold uint at *
  omega

theorem rings_congr {L : Links Entry} {l : List ℕ} (hi : i ≤ maxOrder)
    (h : L.Rings (fun i : Fin (maxOrder + 1) => Entry.freeList i)
      (Function.update (fun i : Fin (maxOrder + 1) => (free i).map Entry.pageLink)
        ⟨i, Nat.lt_succ_of_le hi⟩ (l.map .pageLink))) :
    L.Rings (fun i : Fin (maxOrder + 1) => Entry.freeList i)
      fun j => (Function.update free i l j).map .pageLink := by
  convert h using 1
  funext j
  by_cases hj : j.val = i
  · obtain rfl : j = ⟨i, Nat.lt_succ_of_le hi⟩ := Fin.ext hj
    simp
  · have hne : j ≠ ⟨i, Nat.lt_succ_of_le hi⟩ := fun he => hj (congrArg Fin.val he)
    simp [hj, hne]

namespace Inv

variable (h : Inv base n s free D)

include h

theorem ring (hi : i ≤ maxOrder) : s.links.Ring (.freeList i) ((free i).map .pageLink) :=
  h.rings.ring ⟨i, Nat.lt_succ_of_le hi⟩

theorem nodup (hi : i ≤ maxOrder) : (free i).Nodup :=
  .of_map _ (h.ring hi).nodup_tail

theorem listed_of_mem (hi : i ≤ maxOrder) (hp : p ∈ free i) :
    Listed free i (p / 2 ^ i) := by
  refine ⟨hi, ?_⟩
  rwa [Nat.div_mul_cancel (h.head i hi p hp).1]

theorem of_mem (hi : i ≤ maxOrder) (hp : p ∈ free i) : D p :=
  (h.reduced.cover p).mpr ⟨i, h.listed_of_mem hi hp⟩

theorem order_unique (hi : i ≤ maxOrder) (hj : j ≤ maxOrder) (hp : p ∈ free i) (hp' : p ∈ free j) :
    i = j :=
  h.reduced.unique p i j (h.listed_of_mem hi hp) (h.listed_of_mem hj hp')

theorem mem_iff (hi : i ≤ maxOrder) (hp : p < s.npage) :
    (!s.reserved p && s.pageProperty p && decide (s.property p = 2 ^ i)) = true ↔ p ∈ free i := by
  rw [Bool.and_eq_true, Bool.and_eq_true, decide_eq_true_eq, Bool.not_eq_true']
  constructor
  · rintro ⟨⟨hr, hf⟩, hs⟩
    have hin : base ≤ p ∧ p < base + n := by
      by_contra hout
      rw [(h.reserved p hp).mpr hout] at hr
      exact Bool.noConfusion hr
    obtain ⟨j, hj, hpj⟩ := h.listed p hin.1 hin.2 hf
    have he := (h.head j hj p hpj).2.2
    rw [hs] at he
    rwa [Nat.pow_right_injective le_rfl he]
  · intro hpi
    obtain ⟨-, hf, hs⟩ := h.head i hi p hpi
    refine ⟨⟨?_, hf⟩, hs⟩
    rw [← Bool.not_eq_true, h.reserved p hp, not_not]
    exact h.within p (h.of_mem hi hpi)

/-- A block becomes free. -/
theorem addBlock (hi : i ≤ maxOrder)
    (hD : ∀ x, x / 2 ^ i = q → ¬ D x ∧ base ≤ x ∧ x < base + n)
    (hm : i < maxOrder → mate q * 2 ^ i ∉ free i) :
    Inv base n (s.addBlock (q * 2 ^ i) i) (Function.update free i (q * 2 ^ i :: free i))
      (fun x => D x ∨ x / 2 ^ i = q) := by
  have hout : ∀ j ≤ maxOrder, ∀ p ∈ free j, p ≠ q * 2 ^ i := by
    rintro j hj p hp rfl
    exact (hD _ mul_div_pow).1 (h.of_mem hj hp)
  have hlisted : ∀ j r, Listed (Function.update free i (q * 2 ^ i :: free i)) j r ↔
      Listed free j r ∨ (j = i ∧ r = q) := by
    intro j r
    unfold Listed
    by_cases hj : j = i
    · subst hj
      rw [Function.update_self, List.mem_cons, Nat.mul_left_inj (Nat.two_pow_pos j).ne']
      tauto
    · rw [Function.update_of_ne hj]
      tauto
  constructor
  · exact h.edge
  · exact h.mapped
  · exact h.fits
  · apply rings_congr hi
    rw [List.map_cons]
    apply rings_listAdd (i := (⟨i, Nat.lt_succ_of_le hi⟩ : Fin (maxOrder + 1))) h.rings
    intro j hmem
    rcases List.mem_cons.mp hmem with he | hmem
    · exact Entry.noConfusion he
    · obtain ⟨p, hp, he⟩ := List.mem_map.mp hmem
      exact hout j (Nat.le_of_lt_succ j.isLt) p hp (Entry.pageLink.inj he)
  · intro j hj p hp
    have hcase : p = q * 2 ^ i ∧ j = i ∨ p ∈ free j := by
      by_cases hji : j = i
      · subst hji
        rw [Function.update_self, List.mem_cons] at hp
        exact hp.imp (fun he => ⟨he, rfl⟩) id
      · rw [Function.update_of_ne hji] at hp
        exact .inr hp
    rcases hcase with ⟨rfl, rfl⟩ | hp
    · refine ⟨Nat.dvd_mul_left _ _, ?_, ?_⟩
      · simp [State.addBlock]
      · simp [State.addBlock, uint_two_pow hj]
    · have hne := hout j hj p hp
      obtain ⟨h₁, h₂, h₃⟩ := h.head j hj p hp
      exact ⟨h₁, by simp [State.addBlock, hne, h₂], by simp [State.addBlock, hne, h₃]⟩
  · intro p hp hp' hf
    by_cases hpq : p = q * 2 ^ i
    · exact ⟨i, hi, by simp [hpq]⟩
    · have hf' : s.pageProperty p = true := by simpa [State.addBlock, hpq] using hf
      obtain ⟨j, hj, hpj⟩ := h.listed p hp hp' hf'
      refine ⟨j, hj, ?_⟩
      by_cases hji : j = i
      · subst hji
        rw [Function.update_self]
        exact List.mem_cons_of_mem _ hpj
      · rwa [Function.update_of_ne hji]
  · exact h.reserved
  · intro j hj
    by_cases hji : j = i
    · subst hji
      simp only [State.addBlock, State.link_nrFree, PageArea.setPageProperty_nrFree,
        PageArea.setProperty_nrFree, Function.update_self, List.length_cons]
      exact uint_succ (h.count j hj)
    · simpa [State.addBlock, hji] using h.count j hj
  · apply (h.reduced.insert hi (fun x hx => (hD x hx).1) _).congr (fun _ => Iff.rfl) hlisted
    exact fun hlt hF => hm hlt hF.2
  · rintro x (hx | hx)
    · exact h.within x hx
    · exact (hD x hx).2

/-- A free block is taken. -/
theorem unlink (hi : i ≤ maxOrder) (hq : q * 2 ^ i ∈ free i) :
    Inv base n ((s.unlink (q * 2 ^ i) i).clearPageProperty (q * 2 ^ i))
      (Function.update free i ((free i).erase (q * 2 ^ i))) (fun x => D x ∧ x / 2 ^ i ≠ q) := by
  have hmem : ∀ j ≤ maxOrder, ∀ p,
      p ∈ Function.update free i ((free i).erase (q * 2 ^ i)) j ↔ p ∈ free j ∧ p ≠ q * 2 ^ i := by
    intro j hj p
    by_cases hji : j = i
    · subst hji
      rw [Function.update_self, (h.nodup hj).mem_erase_iff, and_comm]
    · rw [Function.update_of_ne hji]
      refine ⟨fun hp => ⟨hp, ?_⟩, And.left⟩
      rintro rfl
      exact hji (h.order_unique hj hi hp hq)
  have hlisted : ∀ j r, Listed (Function.update free i ((free i).erase (q * 2 ^ i))) j r ↔
      Listed free j r ∧ ¬ (j = i ∧ r = q) := by
    intro j r
    unfold Listed
    by_cases hj : j ≤ maxOrder
    · rw [hmem j hj, and_assoc]
      refine and_congr_right fun _ => and_congr_right fun hr => not_congr ?_
      constructor
      · intro he
        rw [he] at hr
        obtain rfl := h.order_unique hj hi hr hq
        exact ⟨rfl, Nat.eq_of_mul_eq_mul_right (Nat.two_pow_pos j) he⟩
      · rintro ⟨rfl, rfl⟩
        rfl
    · tauto
  constructor
  · exact h.edge
  · exact h.mapped
  · exact h.fits
  · apply rings_congr hi
    obtain ⟨xs, ys, -, hl, he⟩ := List.exists_erase_eq hq
    rw [he, List.map_append]
    apply rings_listDel (i := (⟨i, Nat.lt_succ_of_le hi⟩ : Fin (maxOrder + 1))) h.rings
    simp [hl]
  · intro j hj p hp
    obtain ⟨hp, hne⟩ := (hmem j hj p).mp hp
    obtain ⟨h₁, h₂, h₃⟩ := h.head j hj p hp
    exact ⟨h₁, by simp [hne, h₂], h₃⟩
  · intro p hp hp' hf
    by_cases hpq : p = q * 2 ^ i
    · simp [hpq] at hf
    · have hf' : s.pageProperty p = true := by simpa [hpq] using hf
      obtain ⟨j, hj, hpj⟩ := h.listed p hp hp' hf'
      exact ⟨j, hj, (hmem j hj p).mpr ⟨hpj, hpq⟩⟩
  · exact h.reserved
  · intro j hj
    by_cases hji : j = i
    · subst hji
      simp only [PageArea.clearPageProperty_nrFree, State.unlink_nrFree, Function.update_self]
      rw [List.length_erase_of_mem hq]
      exact uint_pred (h.count j hj) (List.length_pos_of_mem hq)
    · simpa [hji] using h.count j hj
  · exact (h.reduced.remove ⟨hi, hq⟩).congr (fun _ => Iff.rfl) hlisted
  · exact fun x hx => h.within x hx.1

end Inv

end UCore.Buddy
