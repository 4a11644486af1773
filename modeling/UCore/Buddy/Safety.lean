import Mathlib.Algebra.BigOperators.Intervals
import Mathlib.Algebra.Order.BigOperators.Group.Finset
import Mathlib.Data.Set.Card
import Mathlib.Order.Interval.Finset.Nat
import UCore.Buddy.Init

/-! # Safety of the buddy allocator

Free and live blocks tile the managed range along every run. As the free blocks
are the largest ones of what is free, they are those of the initialisation once
nothing is live.
-/

namespace UCore.Buddy

open Library Library.Dyadic Library.PerfectTree

variable {base n i j k o p q x : ℕ} {s s' : State} {free : ℕ → List ℕ} {D : ℕ → Prop}
  {live rest : List (ℕ × ℕ)} {c c' : Config} {op : Op}

/-- The pages of a live allocation, rounded up to a power of two. -/
def InBlock (a : ℕ × ℕ) (x : ℕ) : Prop := a.1 ≤ x ∧ x < a.1 + 2 ^ Nat.clog 2 a.2

def FreePage (free : ℕ → List ℕ) (x : ℕ) : Prop :=
  ∃ i ≤ maxOrder, ∃ p ∈ free i, p ≤ x ∧ x < p + 2 ^ i

def LivePage (live : List (ℕ × ℕ)) (x : ℕ) : Prop := ∃ a ∈ live, InBlock a x

/-- What holds of the lists, the descriptors and the live allocations. -/
structure Valid (base n : ℕ) (c : Config) (free : ℕ → List ℕ) : Prop where
  ring : ∀ i ≤ maxOrder, c.state.links.Ring (.freeList i) ((free i).map .pageLink)
  listed : ∀ i ≤ maxOrder, ∀ p, p ∈ free i ↔ base ≤ p ∧ p < base + n ∧
    c.state.pageProperty p = true ∧ c.state.property p = 2 ^ i
  flagged : ∀ p, base ≤ p → p < base + n → c.state.pageProperty p = true →
    ∃ i ≤ maxOrder, p ∈ free i
  aligned : ∀ i ≤ maxOrder, ∀ p ∈ free i, 2 ^ i ∣ p
  tiles : ∀ x, (base ≤ x ∧ x < base + n) ↔ FreePage free x ∨ LivePage c.live x
  disjoint : ∀ x, ¬ (FreePage free x ∧ LivePage c.live x)
  freeDisjoint : ∀ i ≤ maxOrder, ∀ j ≤ maxOrder, ∀ p ∈ free i, ∀ q ∈ free j, ∀ x,
    p ≤ x → x < p + 2 ^ i → q ≤ x → x < q + 2 ^ j → i = j ∧ p = q
  liveDisjoint : c.live.Pairwise fun a b => ∀ x, ¬ (InBlock a x ∧ InBlock b x)
  apart : ∀ i < maxOrder, ∀ p ∈ free i, p ^^^ 2 ^ i ∉ free i
  nrFree : buddyNrFreePages c.state = Set.ncard {x | FreePage free x}

/-! ## Live allocations -/

/-- The live allocations are disjoint blocks that make up the range without `D`. -/
structure Held (base n : ℕ) (D : ℕ → Prop) (live : List (ℕ × ℕ)) : Prop where
  order : ∀ a ∈ live, 0 < a.2 ∧ getOrder a.2 = some (Nat.clog 2 a.2) ∧
    Nat.clog 2 a.2 ≤ maxOrder ∧ 2 ^ Nat.clog 2 a.2 ∣ a.1
  inside : ∀ a ∈ live, ∀ x, InBlock a x → ¬ D x ∧ base ≤ x ∧ x < base + n
  disjoint : live.Pairwise fun a b => ∀ x, ¬ (InBlock a x ∧ InBlock b x)
  cover : ∀ x, base ≤ x → x < base + n → D x ∨ LivePage live x

namespace Held

variable (h : Held base n D live)

include h

theorem perm (hp : live.Perm rest) : Held base n D rest := by
  constructor
  · exact fun a ha => h.order a (hp.mem_iff.mpr ha)
  · exact fun a ha => h.inside a (hp.mem_iff.mpr ha)
  · exact hp.pairwise h.disjoint fun hab x hx => hab x hx.symm
  · intro x hx hx'
    refine (h.cover x hx hx').imp id ?_
    rintro ⟨a, ha, hax⟩
    exact ⟨a, hp.mem_iff.mp ha, hax⟩

theorem take (hk : 0 < k) (hg : getOrder k = some (Nat.clog 2 k)) (ho : Nat.clog 2 k ≤ maxOrder)
    (hp : 2 ^ Nat.clog 2 k ∣ p) (hD : ∀ x, InBlock (p, k) x → D x)
    (hin : ∀ x, D x → base ≤ x ∧ x < base + n) :
    Held base n (fun x => D x ∧ ¬ InBlock (p, k) x) ((p, k) :: live) := by
  constructor
  · intro a ha
    rcases List.mem_cons.mp ha with rfl | ha
    · exact ⟨hk, hg, ho, hp⟩
    · exact h.order a ha
  · intro a ha x hx
    rcases List.mem_cons.mp ha with rfl | ha
    · exact ⟨fun hx' => hx'.2 hx, hin x (hD x hx)⟩
    · obtain ⟨h₁, h₂⟩ := h.inside a ha x hx
      exact ⟨fun hx' => h₁ hx'.1, h₂⟩
  · rw [List.pairwise_cons]
    refine ⟨?_, h.disjoint⟩
    rintro a ha x ⟨hx, hx'⟩
    exact (h.inside a ha x hx').1 (hD x hx)
  · intro x hx hx'
    by_cases hb : InBlock (p, k) x
    · exact .inr ⟨_, List.mem_cons_self, hb⟩
    · rcases h.cover x hx hx' with hd | ⟨a, ha, hax⟩
      · exact .inl ⟨hd, hb⟩
      · exact .inr ⟨a, List.mem_cons_of_mem _ ha, hax⟩

end Held

theorem Held.nil : Held base n (fun x => base ≤ x ∧ x < base + n) [] := by
  constructor
  · exact fun a ha => absurd ha List.not_mem_nil
  · exact fun a ha => absurd ha List.not_mem_nil
  · exact List.Pairwise.nil
  · exact fun x hx hx' => .inl ⟨hx, hx'⟩

theorem Held.give (h : Held base n D ((p, k) :: rest)) :
    Held base n (fun x => D x ∨ InBlock (p, k) x) rest := by
  obtain ⟨hhead, htail⟩ := List.pairwise_cons.mp h.disjoint
  constructor
  · exact fun a ha => h.order a (List.mem_cons_of_mem _ ha)
  · intro a ha x hx
    obtain ⟨h₁, h₂⟩ := h.inside a (List.mem_cons_of_mem _ ha) x hx
    refine ⟨?_, h₂⟩
    rintro (hx' | hx')
    · exact h₁ hx'
    · exact hhead a ha x ⟨hx', hx⟩
  · exact htail
  · intro x hx hx'
    rcases h.cover x hx hx' with hd | ⟨a, ha, hax⟩
    · exact .inl (.inl hd)
    · rcases List.mem_cons.mp ha with rfl | ha
      · exact .inl (.inr hax)
      · exact .inr ⟨a, ha, hax⟩

/-! ## Steps -/

theorem inBlock_iff (hp : 2 ^ Nat.clog 2 k ∣ p) :
    InBlock (p, k) x ↔ x / 2 ^ Nat.clog 2 k = p / 2 ^ Nat.clog 2 k := (div_pow_eq_iff hp).symm

/-- The lists describe the free pages, the allocations the others. -/
def Tiled (base n : ℕ) (c : Config) : Prop :=
  ∃ free D, Inv base n c.state free D ∧ Held base n D c.live

theorem Tiled.allocPages (h : Tiled base n c) (hk : 0 < k) (ho : getOrder k = some o) :
    ∃ c', c.call (.alloc k) = some c' ∧ Tiled base n c' := by
  obtain ⟨free, D, hi, hh⟩ := h
  rcases hi.alloc hk ho with hn | ⟨p, s', free', hs, rfl, hom, hdvd, hfull, hi'⟩
  · exact ⟨⟨c.state, c.live⟩, by simp [Config.call, hn], free, D, hi, hh⟩
  · refine ⟨⟨s', (p, k) :: c.live⟩, by simp [Config.call, hs], free', _, hi'.congr ?_,
      hh.take hk ho hom hdvd ?_ hi.within⟩
    · intro x
      rw [inBlock_iff hdvd]
    · intro x hx
      exact hfull x ((inBlock_iff hdvd).mp hx)

theorem Tiled.freePages (h : Tiled base n c) (hl : (p, k) ∈ c.live) :
    ∃ c', c.call (.free p k) = some c' ∧ Tiled base n c' := by
  obtain ⟨free, D, hi, hh⟩ := h
  have hh' := hh.perm (List.perm_cons_erase hl)
  obtain ⟨hk, hg, ho, hdvd⟩ := hh.order _ hl
  obtain ⟨s', free', hs, hi'⟩ := hi.freePages hk hg ho hdvd fun x hx =>
    hh.inside _ hl x ((inBlock_iff hdvd).mpr hx)
  refine ⟨⟨s', c.live.erase (p, k)⟩, by simp [Config.call, hs], free', _, hi'.congr ?_, hh'.give⟩
  intro x
  rw [inBlock_iff hdvd]

theorem Tiled.call (h : Tiled base n c) (ha : c.Allowed op) (hc : c.call op = some c') :
    Tiled base n c' := by
  cases op with
  | alloc k =>
    have hk : 0 < k := ha
    obtain ⟨o, ho⟩ : ∃ o, getOrder k = some o := by
      obtain ⟨r, hr, -⟩ := Option.map_eq_some_iff.mp hc
      rw [buddyAllocPages, if_pos hk] at hr
      obtain ⟨o, ho, -⟩ := Option.bind_eq_some_iff.mp hr
      exact ⟨o, ho⟩
    obtain ⟨c₁, hc₁, ht⟩ := h.allocPages hk ho
    obtain rfl := Option.some.inj (hc.symm.trans hc₁)
    exact ht
  | free p k =>
    obtain ⟨c₁, hc₁, ht⟩ := h.freePages ha
    obtain rfl := Option.some.inj (hc.symm.trans hc₁)
    exact ht

/-! ## What a tiled state satisfies -/

namespace Inv

variable (h : Inv base n s free D)

include h

theorem freePage_iff : FreePage free x ↔ D x := by
  rw [h.reduced.cover x]
  constructor
  · rintro ⟨i, hi, p, hp, hx⟩
    refine ⟨i, ?_⟩
    rw [(div_pow_eq_iff (h.head i hi p hp).1).mpr hx]
    exact h.listed_of_mem hi hp
  · rintro ⟨i, hi, hmem⟩
    refine ⟨i, hi, _, hmem, ?_⟩
    rw [← div_pow_eq_iff (Nat.dvd_mul_left _ _), mul_div_pow]

theorem eq_of_mem (hi : i ≤ maxOrder) (hj : j ≤ maxOrder) (hp : p ∈ free i) (hq : q ∈ free j)
    (hx : p ≤ x ∧ x < p + 2 ^ i) (hx' : q ≤ x ∧ x < q + 2 ^ j) : i = j ∧ p = q := by
  have hdp := (h.head i hi p hp).1
  have hdq := (h.head j hj q hq).1
  rw [← div_pow_eq_iff hdp] at hx
  rw [← div_pow_eq_iff hdq] at hx'
  obtain rfl : i = j := by
    apply h.reduced.unique x
    · rw [hx]
      exact h.listed_of_mem hi hp
    · rw [hx']
      exact h.listed_of_mem hj hq
  refine ⟨rfl, ?_⟩
  rw [← Nat.div_mul_cancel hdp, ← Nat.div_mul_cancel hdq, ← hx, ← hx']

theorem ncard_eq : Set.ncard {x | FreePage free x} =
    ∑ i ∈ Finset.range (maxOrder + 1), (free i).length * 2 ^ i := by
  classical
  have hset : {x | FreePage free x} = (((Finset.range (maxOrder + 1)).biUnion fun i =>
      (free i).toFinset.biUnion fun p => Finset.Ico p (p + 2 ^ i) : Finset ℕ) : Set ℕ) := by
    ext x
    simp only [FreePage, Set.mem_ofPred_eq, Finset.coe_biUnion, Finset.coe_range, Set.mem_Iio,
      List.coe_toFinset, Finset.coe_Ico, Set.mem_iUnion, Set.mem_Ico, exists_prop, Nat.lt_succ_iff]
  rw [hset, Set.ncard_coe_finset, Finset.card_biUnion]
  · apply Finset.sum_congr rfl
    intro i hi
    have him : i ≤ maxOrder := Nat.le_of_lt_succ (Finset.mem_range.mp hi)
    rw [Finset.card_biUnion]
    · rw [← List.toFinset_card_of_nodup (h.nodup him)]
      apply Finset.sum_const_nat
      intro p _
      rw [Nat.card_Ico, Nat.add_sub_cancel_left]
    · intro p hp q hq hne
      apply Finset.disjoint_left.mpr
      intro x hx hx'
      rw [Finset.mem_Ico] at hx hx'
      exact hne (h.eq_of_mem him him (List.mem_toFinset.mp hp) (List.mem_toFinset.mp hq) hx hx').2
  · intro i hi j hj hne
    apply Finset.disjoint_left.mpr
    intro x hx hx'
    simp only [Finset.mem_biUnion, List.mem_toFinset, Finset.mem_Ico] at hx hx'
    obtain ⟨p, hp, hpx⟩ := hx
    obtain ⟨q, hq, hqx⟩ := hx'
    have him : i ≤ maxOrder := Nat.le_of_lt_succ (Finset.mem_range.mp hi)
    have hjm : j ≤ maxOrder := Nat.le_of_lt_succ (Finset.mem_range.mp hj)
    exact hne (h.eq_of_mem him hjm hp hq hpx hqx).1

theorem ncard_le : Set.ncard {x | FreePage free x} ≤ n := by
  have hsub : {x | FreePage free x} ⊆ ((Finset.Ico base (base + n) : Finset ℕ) : Set ℕ) := by
    intro x hx
    rw [Finset.coe_Ico]
    exact h.within x (h.freePage_iff.mp hx)
  have := Set.ncard_le_ncard hsub
  rwa [Set.ncard_coe_finset, Nat.card_Ico, Nat.add_sub_cancel_left] at this

theorem nrFreePages : buddyNrFreePages s = Set.ncard {x | FreePage free x} := by
  have hn : n < 2 ^ 32 := by
    have h₁ := h.fits
    have h₂ := h.mapped
    unfold kernbase sizeofPage at h₂
    omega
  have hle := h.ncard_le
  rw [h.ncard_eq] at hle ⊢
  have hsum : buddyNrFreePages s =
      ∑ i ∈ Finset.range (maxOrder + 1), uint (s.nrFree i * 2 ^ i) := rfl
  rw [hsum]
  apply Finset.sum_congr rfl
  intro i hi
  have hterm : (free i).length * 2 ^ i ≤ n :=
    (Finset.single_le_sum (f := fun i => (free i).length * 2 ^ i) (fun _ _ => Nat.zero_le _)
      hi).trans hle
  have hlen : (free i).length ≤ (free i).length * 2 ^ i :=
    Nat.le_mul_of_pos_right _ (Nat.two_pow_pos i)
  have hcount : s.nrFree i = (free i).length := by
    rw [h.count i (Nat.le_of_lt_succ (Finset.mem_range.mp hi))]
    exact Nat.mod_eq_of_lt (by omega)
  rw [hcount]
  exact Nat.mod_eq_of_lt (by omega)

end Inv

theorem Inv.valid (hi : Inv base n c.state free D) (hh : Held base n D c.live) :
    Valid base n c free := by
  constructor
  · exact fun i him => hi.ring him
  · intro i him p
    constructor
    · intro hp
      obtain ⟨h₁, h₂⟩ := hi.within p (hi.of_mem him hp)
      exact ⟨h₁, h₂, (hi.head i him p hp).2⟩
    · rintro ⟨h₁, h₂, hf, hs⟩
      obtain ⟨j, hj, hp⟩ := hi.listed p h₁ h₂ hf
      have he := (hi.head j hj p hp).2.2
      rw [hs] at he
      rwa [Nat.pow_right_injective le_rfl he]
  · exact hi.listed
  · exact fun i him p hp => (hi.head i him p hp).1
  · intro x
    rw [hi.freePage_iff]
    constructor
    · exact fun hx => hh.cover x hx.1 hx.2
    · rintro (hx | ⟨a, ha, hax⟩)
      · exact hi.within x hx
      · exact (hh.inside a ha x hax).2
  · rintro x ⟨hx, a, ha, hax⟩
    exact (hh.inside a ha x hax).1 (hi.freePage_iff.mp hx)
  · intro i him j hj p hp q hq x h₁ h₂ h₃ h₄
    exact hi.eq_of_mem him hj hp hq ⟨h₁, h₂⟩ ⟨h₃, h₄⟩
  · exact hh.disjoint
  · intro i him p hp hmem
    obtain ⟨q, rfl⟩ : ∃ q, p = q * 2 ^ i := by
      obtain ⟨q, hq⟩ := (hi.head i him.le p hp).1
      exact ⟨q, by rw [hq, mul_comm]⟩
    rw [← mate_mul_pow] at hmem
    exact hi.reduced.apart i q him ⟨him.le, hp⟩ ⟨him.le, hmem⟩
  · exact hi.nrFreePages

theorem Inv.restored {free₀ : ℕ → List ℕ} (hi : Inv base n s free D) (hh : Held base n D live)
    (hl : live = []) (h₀ : Inv base n s' free₀ fun x => base ≤ x ∧ x < base + n)
    (him : i ≤ maxOrder) : p ∈ free i ↔ p ∈ free₀ i := by
  have hD : ∀ x, D x ↔ base ≤ x ∧ x < base + n := by
    intro x
    refine ⟨hi.within x, fun hx => (hh.cover x hx.1 hx.2).resolve_right ?_⟩
    rintro ⟨a, ha, -⟩
    rw [hl] at ha
    exact List.not_mem_nil ha
  have heq : ∀ q, Listed free i q ↔ Listed free₀ i q := fun q =>
    hi.reduced.eq_of_cover (h₀.reduced.congr hD fun _ _ => Iff.rfl)
  constructor
  · intro hp
    have := ((heq _).mp (hi.listed_of_mem him hp)).2
    rwa [Nat.div_mul_cancel (hi.head i him p hp).1] at this
  · intro hp
    have := ((heq _).mpr (h₀.listed_of_mem him hp)).2
    rwa [Nat.div_mul_cancel (h₀.head i him p hp).1] at this

/-- Along every run of requests and frees of live allocations the lists, the descriptors and the
allocations stay valid, and what is free once nothing is live is what was free at the start. -/
theorem buddy_valid (s : State) (base n : ℕ) (hw : 2 ^ maxOrder ∣ s.npage)
    (hm : kernbase + s.npage * sizeofPage ≤ 2 ^ 64) (hn : 0 < n) (hb : base + n ≤ s.npage)
    (hr : ∀ p < s.npage, s.reserved p = true) :
    ∃ s₀ free₀, buddyInitMemmap (buddyInit s) base n = some s₀ ∧ Valid base n ⟨s₀, []⟩ free₀ ∧
      ∀ ops c, Runs (fun c op c' => c.Allowed op ∧ c.call op = some c') ⟨s₀, []⟩ ops c →
        (∃ free, Valid base n c free ∧
          (c.live = [] → ∀ i ≤ maxOrder, ∀ p, p ∈ free i ↔ p ∈ free₀ i)) ∧
        (∀ k, 0 < k → k ≤ 2 ^ 64 - 2 ^ 31 → ∃ c', c.call (.alloc k) = some c') ∧
        ∀ p k, (p, k) ∈ c.live → ∃ c', c.call (.free p k) = some c' := by
  obtain ⟨s₀, free₀, he, hi⟩ := buddyInitMemmap_inv (.of_dvd hw) hm hn hb hr
  refine ⟨s₀, free₀, he, Inv.valid hi Held.nil, ?_⟩
  intro ops c hruns
  have ht : Tiled base n c := by
    apply hruns.invariant (P := Tiled base n)
    · exact fun c op c' ht hs => ht.call hs.1 hs.2
    · exact ⟨free₀, _, hi, Held.nil⟩
  refine ⟨?_, ?_, ?_⟩
  · obtain ⟨free, D, hi', hh'⟩ := ht
    exact ⟨free, hi'.valid hh', fun hl i him p => hi'.restored hh' hl hi him⟩
  · intro k hk hle
    obtain ⟨o, ho⟩ := getOrder_total hle
    obtain ⟨c', hc, -⟩ := ht.allocPages hk ho
    exact ⟨c', hc⟩
  · intro p k hl
    obtain ⟨c', hc, -⟩ := ht.freePages hl
    exact ⟨c', hc⟩

/-- An array of descriptors as `page_init` leaves it. -/
def reservedArray : State where
  npage := 2 ^ 14
  ref := fun _ => 0
  reserved := fun _ => true
  pageProperty := fun _ => false
  property := fun _ => 0
  links := ⟨fun x => x, fun x => x⟩
  nrFree := fun _ => 0

instance Config.decidableAllowed (c : Config) : DecidablePred c.Allowed
  | .alloc k => inferInstanceAs (Decidable (0 < k))
  | .free p k => inferInstanceAs (Decidable ((p, k) ∈ c.live))

/-- A block of two pages is freed, and a larger one split for a request of three. -/
def splitCalls : List Op := [.alloc 2, .alloc 1, .free 6 2, .alloc 3]

theorem buddy_valid_array : ∃ s₀ c, buddyInitMemmap (buddyInit reservedArray) 5 11 = some s₀ ∧
    Runs (fun c op c' => c.Allowed op ∧ c.call op = some c') ⟨s₀, []⟩ splitCalls c ∧
      c.live = [(8, 3), (5, 1)] ∧ ∃ free, Valid 5 11 c free := by
  have hc : ((buddyInitMemmap (buddyInit reservedArray) 5 11).bind fun s₀ => splitCalls.foldlM
      (fun (c : Config) op => if c.Allowed op then c.call op else none) ⟨s₀, []⟩).map
      Config.live = some [(8, 3), (5, 1)] := by decide +kernel
  obtain ⟨c, hr, hl⟩ := Option.map_eq_some_iff.mp hc
  obtain ⟨s₀, hb, hr⟩ := Option.bind_eq_some_iff.mp hr
  obtain ⟨s₁, free₀, hb₁, -, h⟩ := buddy_valid reservedArray 5 11 (dvd_refl _) (by decide)
    (by decide) (by decide) fun _ _ => rfl
  obtain rfl := Option.some.inj (hb.symm.trans hb₁)
  have hruns := Runs.of_guard hr
  obtain ⟨⟨free, hv, -⟩, -⟩ := h _ c hruns
  exact ⟨s₀, c, hb, hruns, hl, free, hv⟩

end UCore.Buddy
