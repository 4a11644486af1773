import Mathlib.Data.Finset.Card
import Mathlib.Data.Finset.Range
import Mathlib.Data.List.Basic
import UCore.BuddyTree.Place

/-! # Completeness of the buddy tree

As long as no request splits a node above states left over from earlier blocks,
the states of the exposed nodes are exact: nodes in use are live, split nodes
have a live node and room below them, full nodes have no room. A request then
fails only when no block of its size is free.
-/

namespace UCore.BuddyTree

open Library Library.PerfectTree

variable {t t' : ℤ → Node} {m v w a b d i j k n u x r L s : ℕ} {nodes : List ℕ} {c c' : Config}

/-- There is a leaf below `m` that is reached through unused nodes. -/
def Room (L : ℕ) (t : ℤ → Node) (m : ℕ) : Prop :=
  ∃ y, 2 ^ L ≤ y ∧ y < 2 ^ (L + 1) ∧ Above m y ∧
    ∀ b, b ≠ m → Above m b → Above b y → node t b = .unused

/-- The state of node `m` says what is below it. -/
structure ExactAt (L : ℕ) (t : ℤ → Node) (nodes : List ℕ) (m : ℕ) : Prop where
  used : node t m = .used → m ∈ nodes
  split : node t m = .split → m < 2 ^ L ∧ (∃ v ∈ nodes, Above m v) ∧
    ∀ d, 1 < d → d / 2 = m → ¬ (Closed (node t d) ∧ Closed (node t (mate d)))
  full : node t m = .full → m < 2 ^ L ∧ ∀ d, d / 2 = m → Closed (node t d)

/-- The states of exposed nodes are exact, and unused nodes and nodes in use have room below. -/
structure Exact (L : ℕ) (t : ℤ → Node) (nodes : List ℕ) : Prop where
  states : ∀ m, 0 < m → m < 2 ^ (L + 1) → Exposed t m → ExactAt L t nodes m
  room : ∀ m, 0 < m → m < 2 ^ (L + 1) → ¬ Opened (node t m) → Room L t m

theorem Exposed.child (h : Exposed t m) (ho : Opened (node t m)) (hd : d / 2 = m) :
    Exposed t d := by
  intro a ha hne had
  have ham := had.half_of_ne hne
  rw [hd] at ham
  by_cases he : a = m
  · rwa [he]
  · exact h a ha he ham

theorem Exposed.above (h : Exposed t v) (ha : Above a v) : Exposed t a := by
  intro b hb hne hba
  by_cases hav : a = v
  · subst hav
    exact h b hb hne hba
  · have hbv : b ≠ v := by
      rintro rfl
      exact hav (ha.antisymm hba)
    exact h b hb hbv (hba.trans ha)

theorem not_opened_used : ¬ Opened .used := by
  rintro (h | h) <;> exact Node.noConfusion h

theorem not_opened_unused : ¬ Opened .unused := by
  rintro (h | h) <;> exact Node.noConfusion h

theorem not_closed_unused : ¬ Closed .unused := by
  rintro (h | h) <;> exact Node.noConfusion h

theorem not_closed_split : ¬ Closed .split := by
  rintro (h | h) <;> exact Node.noConfusion h

theorem Exact.covered (e : Exact L t nodes) (hm0 : 0 < m) (hm : m < 2 ^ (L + 1))
    (hx : Exposed t m) (hc : Closed (node t m)) {y : ℕ} (hL : 2 ^ L ≤ y)
    (ha : Above m y) : ∃ v ∈ nodes, Above v y := by
  induction hn : 2 ^ (L + 1) - m using Nat.strong_induction_on generalizing m with
  | _ n ih =>
    rcases hc with hu | hf
    · exact ⟨m, (e.states m hm0 hm hx).used hu, ha⟩
    · obtain ⟨hmL, hch⟩ := (e.states m hm0 hm hx).full hf
      obtain ⟨d, hd, hdy⟩ := ha.child (by omega)
      have hdlt : d < 2 ^ (L + 1) := by
        rw [pow_succ]
        omega
      exact ih (2 ^ (L + 1) - d) (by omega) (by omega) hdlt (hx.child (.inr hf) hd) (hch d hd)
        hdy rfl

theorem exists_leaf (h0 : m ≠ 0) (hm : m < 2 ^ (L + 1)) :
    ∃ y, 2 ^ L ≤ y ∧ y < 2 ^ (L + 1) ∧ Above m y := by
  have hs := add_offset h0 hm
  have hle := offset_add_le h0 hm
  have hp := size_pos (L := L) (v := m)
  refine ⟨m * size L m, by omega, ?_, L - Nat.log 2 m, Nat.mul_div_cancel _ hp⟩
  rw [pow_succ]
  omega

theorem Exact.live_below (e : Exact L c.buddy.tree nodes) (h : Inv L c nodes) (hm0 : 0 < m)
    (hm : m < 2 ^ (L + 1)) (hx : Exposed c.buddy.tree m) (hc : node c.buddy.tree m ≠ .unused) :
    ∃ v ∈ nodes, Above m v := by
  have closed : Closed (node c.buddy.tree m) → ∃ v ∈ nodes, Above m v := by
    intro hcl
    obtain ⟨y, hL, hy, hmy⟩ := exists_leaf hm0.ne' hm
    obtain ⟨v, hv, hvy⟩ := e.covered hm0 hm hx hcl hL hmy
    refine ⟨v, hv, ?_⟩
    rcases hmy.total hvy with ha | ha
    · exact ha
    · by_cases hne : v = m
      · rw [hne]
      · have := hx v (Nat.pos_of_ne_zero (h.bounds v hv).1) hne ha
        rw [h.used v hv] at this
        exact absurd this not_opened_used
  cases hn : node c.buddy.tree m with
  | unused => exact absurd hn hc
  | used => exact closed (.inl hn)
  | split => exact ((e.states m hm0 hm hx).split hn).2.1
  | full => exact closed (.inr hn)

/-- A free block is found. -/
theorem Exact.place_ne_none (e : Exact L c.buddy.tree nodes) (h : Inv L c nodes) (hk : w ≠ 0)
    (hw : w < 2 ^ (L + 1)) (hfree : ∀ v ∈ nodes, ¬ Above v w ∧ ¬ Above w v) (hm0 : 0 < m)
    (hm : w / 2 ^ n = m) (hx : Exposed c.buddy.tree m) : place n c.buddy.tree m ≠ none := by
  have hmw : Above m w := ⟨n, hm⟩
  have hmL : m < 2 ^ (L + 1) := hmw.le.trans_lt hw
  have hclosed : ¬ Closed (node c.buddy.tree m) := by
    intro hcl
    obtain ⟨y, hL, hy, hwy⟩ := exists_leaf hk hw
    obtain ⟨v, hv, hvy⟩ := e.covered hm0 hmL hx hcl hL (hmw.trans hwy)
    rcases hvy.total hwy with ha | ha
    · exact (hfree v hv).1 ha
    · exact (hfree v hv).2 ha
  induction n generalizing m with
  | zero =>
    obtain rfl : w = m := by simpa using hm
    have hu : node c.buddy.tree w = .unused := by
      by_contra hne
      obtain ⟨v, hv, hwv⟩ := e.live_below h hm0 hmL hx hne
      exact (hfree v hv).2 hwv
    simp [place, hu]
  | succ n ih =>
    cases hn : node c.buddy.tree m with
    | unused => simp [place, hn]
    | used => exact absurd (.inl hn) hclosed
    | full => exact absurd (.inr hn) hclosed
    | split =>
      have hd : w / 2 ^ n / 2 = m := by rw [← div_two_pow_succ, hm]
      have hxd := hx.child (.inl hn) hd
      have hdw : Above (w / 2 ^ n) w := ⟨n, rfl⟩
      have hclosed' : ¬ Closed (node c.buddy.tree (w / 2 ^ n)) := by
        intro hcl
        obtain ⟨y, hL, hy, hwy⟩ := exists_leaf hk hw
        obtain ⟨v, hv, hvy⟩ := e.covered (by omega) (hdw.le.trans_lt hw) hxd hcl hL
          (hdw.trans hwy)
        rcases hvy.total hwy with ha | ha
        · exact (hfree v hv).1 ha
        · exact (hfree v hv).2 ha
      have hp := ih (by omega) rfl hxd hdw (hdw.le.trans_lt hw) hclosed'
      have hcase : w / 2 ^ n = 2 * m ∨ w / 2 ^ n = 2 * m + 1 := by omega
      simp only [place, hn, reduceCtorEq, if_false, if_true]
      rw [Ne, Option.or_eq_none_iff, not_and_or]
      rcases hcase with he | he
      · exact .inl (he ▸ hp)
      · exact .inr (he ▸ hp)

/-! ## Calls -/

theorem Room.congr (h : Room L t m) (hc : ∀ b, b ≠ m → Above m b → node t' b = node t b) :
    Room L t' m := by
  obtain ⟨y, hL, hy, hmy, hb⟩ := h
  refine ⟨y, hL, hy, hmy, ?_⟩
  intro b hne hmb hby
  rw [hc b hne hmb]
  exact hb b hne hmb hby

theorem ExactAt.congr {nodes' : List ℕ} (e : ExactAt L t nodes m)
    (ht : node t' m = node t m) (hc : ∀ d, d / 2 = m → node t' d = node t d)
    (hn : ∀ v ∈ nodes, Above m v → v ∈ nodes') : ExactAt L t' nodes' m := by
  constructor
  · intro hu
    exact hn m (e.used (ht ▸ hu)) (.refl m)
  · intro hs
    obtain ⟨hL, ⟨v, hv, hmv⟩, hd⟩ := e.split (ht ▸ hs)
    refine ⟨hL, ⟨v, hn v hv hmv, hmv⟩, ?_⟩
    intro d hd1 hdm
    rw [hc d hdm, hc (mate d) (by rw [mate_half, hdm])]
    exact hd d hd1 hdm
  · intro hf
    obtain ⟨hL, hd⟩ := e.full (ht ▸ hf)
    refine ⟨hL, ?_⟩
    intro d hdm
    rw [hc d hdm]
    exact hd d hdm

theorem exactAt_unused (h : node t m = .unused) : ExactAt L t nodes m := by
  constructor
  · intro hu
    rw [h] at hu
    exact Node.noConfusion hu
  · intro hu
    rw [h] at hu
    exact Node.noConfusion hu
  · intro hu
    rw [h] at hu
    exact Node.noConfusion hu

/-- What changed lies above `p`, and off that path nothing becomes exposed but unused nodes. -/
structure Changed (t t' : ℤ → Node) (p : ℕ) : Prop where
  other : ∀ x, ¬ Above x p → node t' x = node t x
  exposed : ∀ x, Exposed t' x → ¬ Above x p → Exposed t x ∨ node t x = .unused

theorem Exact.change {p : ℕ} {nodes' : List ℕ} (e : Exact L t nodes) (hc : Changed t t' p)
    (hn : ∀ m, Exposed t' m → ¬ Above m p → ∀ v ∈ nodes, Above m v → v ∈ nodes')
    (hp : ∀ m, 0 < m → m < 2 ^ (L + 1) → Exposed t' m → Above m p → ExactAt L t' nodes' m)
    (hr : ∀ m, 0 < m → m < 2 ^ (L + 1) → ¬ Opened (node t' m) → Above m p → Room L t' m) :
    Exact L t' nodes' := by
  constructor
  · intro m hm0 hm hx
    by_cases ha : Above m p
    · exact hp m hm0 hm hx ha
    · rcases hc.exposed m hx ha with hx' | hu
      · apply (e.states m hm0 hm hx').congr (hc.other m ha)
        · intro d hd
          exact hc.other d fun hdp => ha (.trans (hd ▸ Above.half d) hdp)
        · exact hn m hx ha
      · exact exactAt_unused ((hc.other m ha).trans hu)
  · intro m hm0 hm ho
    by_cases ha : Above m p
    · exact hr m hm0 hm ho ha
    · rw [hc.other m ha] at ho
      apply (e.room m hm0 hm ho).congr
      intro b _ hmb
      exact hc.other b fun hbp => ha (hmb.trans hbp)

/-- The search splits the nodes above `v`, and a node below one that it has opened was unused. -/
structure Found (t t' : ℤ → Node) (k v : ℕ) : Prop where
  row : v / 2 ^ k = 1
  unused : node t v = .unused
  split : ∀ i, 0 < i → i ≤ k → node t' (v / 2 ^ i) = .split
  other : ∀ x, ¬ Above x v → node t' x = node t x
  fresh : ∀ a d, 0 < a → Above a (d / 2) → Above (d / 2) v → d / 2 ≠ v →
    ¬ Opened (node t a) → node t d = .unused

/-- A request that splits only nodes with unused children. -/
theorem found_of_place (hp : place k t 1 = some u) (hc : Clean (2 ^ k) t u) :
    ∃ v t', find k t 1 = (some v, t') ∧ Found t t' k v := by
  obtain ⟨-, huu, hsp⟩ := place_above hp
  have hu0 : 0 < u := (place_above hp).1.le
  have hB : (1 + 1) * 2 ^ k ≤ 2 * 2 ^ k := le_rfl
  obtain ⟨j, hrow, hf, hlt⟩ := find_of_place Nat.one_pos hp hB hc
  obtain ⟨-, hv, hs⟩ := find_some Nat.one_pos (by rw [hf])
  rw [hf] at hv hs
  have hupow : ∀ i ≤ j, Above (u * 2 ^ i) (u * 2 ^ j) := by
    intro i hi
    refine ⟨j - i, ?_⟩
    rw [← Nat.add_sub_cancel' hi, pow_add, ← mul_assoc, Nat.add_sub_cancel_left,
      Nat.mul_div_cancel _ (Nat.two_pow_pos _)]
  have hother : ∀ x, (∀ i < j, x ≠ u * 2 ^ i) → node (openDown t u j) x = node t x := by
    intro x hx
    rcases node_openDown (j := j) (t := t) hu0 x with ⟨⟨i, hi, he⟩, -⟩ | ⟨-, h⟩
    · exact absurd he (hx i hi)
    · exact h
  refine ⟨u * 2 ^ j, openDown t u j, hf, hrow, ?_, hs, ?_, ?_⟩
  · rcases node_openDown (j := j) (t := t) hu0 (u * 2 ^ j) with ⟨-, h⟩ | ⟨-, h⟩
    · rw [hv] at h
      exact Node.noConfusion h
    · exact h ▸ hv
  · intro x hx
    apply hother
    rintro i hi rfl
    exact hx (hupow i hi.le)
  · intro a d ha0 had hdv hne hao
    have hua : u ≤ a := by
      by_contra hlt'
      have hav := had.trans hdv
      have hau : Above a u := by
        rcases hav.total (hupow 0 (Nat.zero_le j)) with h | h
        · simpa using h
        · have := h.le
          simp only [pow_zero, mul_one] at this
          omega
      exact hao (.inl (hsp a (one_above ha0.ne') (by omega) hau))
    obtain ⟨i, hij, hi⟩ := hdv.eq_mul_pow hu0 (hua.trans had.le)
    have hij' : i < j := by
      apply lt_of_le_of_ne hij
      rintro rfl
      exact hne hi
    have hlti : u * 2 ^ i < 2 ^ k := by
      have h₁ : u * 2 ^ (i + 1) ≤ u * 2 ^ j :=
        Nat.mul_le_mul_left u (Nat.pow_le_pow_right Nat.two_pos hij')
      rw [pow_succ, ← mul_assoc] at h₁
      omega
    rcases (by omega : d = 2 * (u * 2 ^ i) ∨ d = 2 * (u * 2 ^ i) + 1) with he | he
    · exact he ▸ (hc i hlti).1
    · exact he ▸ (hc i hlti).2

theorem Marked.node_mate (hm : Marked t t' v r) (hi : 1 < v / 2 ^ i) :
    node t' (mate (v / 2 ^ i)) = node t (mate (v / 2 ^ i)) := by
  have hnot := mate_not_above hi ⟨i, rfl⟩
  apply hm.other
  intro i' _ _ he
  exact hnot ⟨i', he.symm⟩

section Mark

variable {t₁ : ℤ → Node} (f : Found t t₁ k v)
  (hm : Marked (Function.update t₁ ((v : ℤ) - 1) .used) t' v r)

include f

theorem Found.pos : 0 < v := by
  have := f.row
  rcases Nat.eq_zero_or_pos v with rfl | h
  · simp at this
  · exact h

theorem Found.ancestor (ha : Above a v) (h0 : 0 < a) (hne : a ≠ v) :
    ∃ i, 0 < i ∧ i ≤ k ∧ a = v / 2 ^ i := by
  obtain ⟨i, rfl⟩ := ha
  refine ⟨i, ?_, ?_, rfl⟩
  · apply Nat.pos_of_ne_zero
    rintro rfl
    simp at hne
  · by_contra hlt
    obtain ⟨n, rfl⟩ := Nat.exists_eq_add_of_lt (Nat.lt_of_not_le hlt)
    rw [add_assoc, div_two_pow_add, f.row, Nat.div_eq_of_lt (Nat.one_lt_two_pow (by omega))] at h0
    exact lt_irrefl 0 h0

theorem Found.not_above {i : ℕ} (hi : 0 < i) : v ≠ v / 2 ^ i := by
  have := Nat.div_lt_self f.pos (Nat.one_lt_two_pow hi.ne')
  omega

include hm

theorem Found.marked_self : node t' v = .used := by
  rw [hm.other v fun i hi _ => f.not_above hi, node_update_self]

theorem Found.marked_other {x : ℕ} (hx : ¬ Above x v) : node t' x = node t x := by
  rw [hm.other x fun i _ _ he => hx ⟨i, he.symm⟩, node_update_of_ne, f.other x hx]
  rintro rfl
  exact hx (.refl x)

theorem Found.marked_split {i : ℕ} (hi : 0 < i) (hk : i ≤ k) (hr : r < i) :
    node t' (v / 2 ^ i) = .split := by
  have hne : v / 2 ^ i ≠ 0 := by
    intro h0
    have := f.row
    obtain ⟨n, rfl⟩ := Nat.exists_eq_add_of_le hk
    rw [div_two_pow_add, h0, Nat.zero_div] at this
    exact absurd this (by omega)
  rw [hm.other, node_update_of_ne (f.not_above hi).symm, f.split i hi hk]
  intro i' hi' hr' he
  have h₁ := log_div hne
  have h₂ := log_div (he ▸ hne : v / 2 ^ i' ≠ 0)
  rw [he] at h₁
  omega

theorem Found.marked_opened (ha : Above a v) (h0 : 0 < a) (hne : a ≠ v) : Opened (node t' a) := by
  obtain ⟨i, hi, hik, rfl⟩ := f.ancestor ha h0 hne
  by_cases hr : r < i
  · exact .inl (f.marked_split hm hi hik hr)
  · exact .inr (hm.path i hi (by omega))

theorem Found.changed : Changed t t' v := by
  constructor
  · exact fun x hx => f.marked_other hm hx
  · intro x hx hxv
    by_cases hxt : Exposed t x
    · exact .inl hxt
    · right
      unfold Exposed at hxt
      push Not at hxt
      obtain ⟨a, ha0, hax, ha, hao⟩ := hxt
      have hav : Above a v := by
        by_contra hav
        have := hx a ha0 hax ha
        rw [f.marked_other hm hav] at this
        exact hao this
      obtain ⟨d, hdx, had, hdv, hd⟩ := ha.branch hav hxv
      have hdne : d / 2 ≠ v := by
        intro he
        have hvx : Above v x := .trans (he ▸ .half d) hdx
        have hvne : v ≠ x := by
          rintro rfl
          exact hxv (.refl v)
        have := hx v f.pos hvne hvx
        rw [f.marked_self hm] at this
        exact not_opened_used this
      have hdu := f.fresh a d ha0 had hdv hdne hao
      by_cases he : d = x
      · exact he ▸ hdu
      · have hd0 : 0 < d := by
          have := had.le
          omega
        have := hx d hd0 he hdx
        rw [f.marked_other hm hd, hdu] at this
        exact absurd this not_opened_unused

end Mark

theorem lt_pow_of_child (hm : m < 2 ^ (L + 1)) (h : d / 2 = n) (hd : Above d m) : n < 2 ^ L := by
  have := hd.le
  rw [pow_succ] at hm
  omega

theorem Exact.mark {t₁ : ℤ → Node} (e : Exact L t nodes) (hk : k ≤ L) (f : Found t t₁ k v)
    (hm : Marked (Function.update t₁ ((v : ℤ) - 1) .used) t' v r) : Exact L t' (v :: nodes) := by
  have hv0 := f.pos
  have hvL : v < 2 ^ (L + 1) := lt_of_row hk f.row
  have hself := f.marked_self hm
  apply e.change (f.changed hm)
  · intro m _ _ w hw _
    exact List.mem_cons_of_mem v hw
  · intro m hm0 hmL _ hmv
    by_cases hne : m = v
    · subst hne
      constructor
      · exact fun _ => List.mem_cons_self
      · intro h
        rw [hself] at h
        exact Node.noConfusion h
      · intro h
        rw [hself] at h
        exact Node.noConfusion h
    · have ho := f.marked_opened hm hmv hm0 hne
      obtain ⟨i, hi, hik, rfl⟩ := f.ancestor hmv hm0 hne
      obtain ⟨n, rfl⟩ : ∃ n, i = n + 1 := ⟨i - 1, by omega⟩
      have hhalf : v / 2 ^ n / 2 = v / 2 ^ (n + 1) := div_two_pow_succ.symm
      have hlt := lt_pow_of_child hvL hhalf ⟨n, rfl⟩
      have hpair : ∀ d, d / 2 = v / 2 ^ (n + 1) → d = v / 2 ^ n ∨ d = mate (v / 2 ^ n) := by
        intro d hd
        exact eq_or_mate (hhalf.trans hd.symm)
      have hmate := hm.node_mate (i := n) (by omega)
      constructor
      · intro hu
        rw [hu] at ho
        exact absurd ho not_opened_used
      · intro hs
        refine ⟨hlt, ⟨v, List.mem_cons_self, hmv⟩, ?_⟩
        have hrn : r ≤ n := by
          by_contra hlt'
          rw [hm.path (n + 1) (by omega) (by omega)] at hs
          exact Node.noConfusion hs
        have hnot : ¬ (Closed (node t' (v / 2 ^ n)) ∧ Closed (node t' (mate (v / 2 ^ n)))) := by
          rintro ⟨h₁, h₂⟩
          rcases hrn.lt_or_eq with hlt' | rfl
          · rw [f.marked_split hm (by omega) (by omega) hlt'] at h₁
            exact not_closed_split h₁
          · rw [hmate] at h₂
            rcases hm.stopped with h | h
            · omega
            · exact h h₂
        intro d hd1 hd
        rcases hpair d hd with rfl | rfl
        · exact hnot
        · rw [mate_mate]
          exact fun h => hnot ⟨h.2, h.1⟩
      · intro hf
        refine ⟨hlt, ?_⟩
        have hnr : n < r := by
          by_contra hle
          rw [f.marked_split hm hi hik (by omega)] at hf
          exact Node.noConfusion hf
        intro d hd
        rcases hpair d hd with rfl | rfl
        · rcases Nat.eq_zero_or_pos n with rfl | hn0
          · left
            simpa using hself
          · exact .inr (hm.path n hn0 hnr.le)
        · rw [hmate]
          exact (hm.climbed n hnr).2
  · intro m hm0 hmL ho hmv
    by_cases hne : m = v
    · subst hne
      have hno : ¬ Opened (node t m) := by
        rw [f.unused]
        exact not_opened_unused
      apply (e.room m hm0 hmL hno).congr
      intro b hb hmb
      exact f.marked_other hm fun hbm => hb (hbm.antisymm hmb)
    · exact absurd (f.marked_opened hm hmv hm0 hne) ho

section Combine

variable (h : Inv L c nodes) (hv : v ∈ nodes) (hc : Combined c.buddy.tree t' v a b)

include hc

theorem Combined.above : Above a v := by
  obtain ⟨s, rfl, -⟩ := hc.merged
  exact ⟨s, rfl⟩

theorem Combined.frame {x : ℕ} (hx : ¬ Above x a) : node t' x = node c.buddy.tree x := by
  apply hc.other
  · rintro rfl
    exact hx (.refl x)
  · intro i _ _ he
    exact hx ⟨i, he.symm⟩

theorem Combined.not_below {x : ℕ} (h0 : 0 < a) (hx : Exposed t' x) (hxa : ¬ Above x a) :
    ¬ Above a x := by
  intro hax
  have hne : a ≠ x := by
    rintro rfl
    exact hxa (.refl a)
  have := hx a h0 hne hax
  rw [hc.freed] at this
  exact not_opened_unused this

include h hv

theorem Combined.opened {x : ℕ} (hx : Above x a) (h0 : 0 < x) (hne : x ≠ a) :
    Opened (node c.buddy.tree x) := by
  apply h.exposed v hv x h0
  · rintro rfl
    exact hne (hx.antisymm hc.above)
  · exact hx.trans hc.above

/-- Above a freed node all nodes are split. -/
theorem Combined.split (e : Exact L c.buddy.tree nodes) {x : ℕ} (hx : Above x a) (h0 : 0 < x)
    (hne : x ≠ a) : node t' x = .split := by
  obtain ⟨i, rfl⟩ := hx
  have hi : 0 < i := by
    apply Nat.pos_of_ne_zero
    rintro rfl
    simp at hne
  have haL : a < 2 ^ (L + 1) := hc.above.le.trans_lt (h.bounds v hv).2
  have hnf : ∀ i, b < i → 0 < a / 2 ^ i → node c.buddy.tree (a / 2 ^ i) ≠ .full := by
    intro i hbi
    induction i, hbi using Nat.le_induction with
    | base =>
      intro h0
      exact hc.top.resolve_left h0.ne'
    | succ i hbi ih =>
      intro h0 hf
      have hpos : 0 < a / 2 ^ i := by
        rw [div_two_pow_succ] at h0
        omega
      have hlt : a / 2 ^ i < a := Nat.div_lt_self (by
        have := Nat.div_le_self a (2 ^ i)
        omega) (Nat.one_lt_two_pow (by omega))
      have hx : Exposed c.buddy.tree (a / 2 ^ (i + 1)) :=
        (h.exposed v hv).above (.trans ⟨i + 1, rfl⟩ hc.above)
      have hcl := ((e.states _ h0 ((Nat.div_le_self _ _).trans_lt haL) hx).full hf).2
        (a / 2 ^ i) div_two_pow_succ.symm
      rcases hcl with hu | hf'
      · have := hc.opened h hv ⟨i, rfl⟩ hpos hlt.ne
        rw [hu] at this
        exact not_opened_used this
      · exact ih hpos hf'
  by_cases hib : i ≤ b
  · exact (hc.resplit i hi hib).2
  · have hsame : node t' (a / 2 ^ i) = node c.buddy.tree (a / 2 ^ i) := by
      apply hc.other _ hne
      intro i' _ hi' he
      have h₁ := log_div h0.ne'
      have h₂ := log_div (he ▸ h0.ne' : a / 2 ^ i' ≠ 0)
      rw [he] at h₁
      omega
    rw [hsame]
    exact (hc.opened h hv ⟨i, rfl⟩ h0 hne).resolve_right (hnf i (by omega) h0)

theorem Combined.changed : Changed c.buddy.tree t' a := by
  constructor
  · exact fun x hx => hc.frame hx
  · intro x hx hxa
    left
    intro d hd hne hdx
    by_cases hda : Above d a
    · by_cases he : d = a
      · subst he
        have := hx d hd hne hdx
        rw [hc.freed] at this
        exact absurd this not_opened_unused
      · exact hc.opened h hv hda hd he
    · have := hx d hd hne hdx
      rwa [hc.frame hda] at this

theorem Combined.live_below (e : Exact L c.buddy.tree nodes) {x : ℕ} (hx : Above x a) (h0 : 0 < x)
    (hne : x ≠ a) : ∃ w ∈ nodes.filter fun w => w ≠ v, Above x w := by
  have hxh := hx.half_of_ne hne
  have ha1 : 1 < a := by
    have := hxh.le
    omega
  have haL : a < 2 ^ (L + 1) := hc.above.le.trans_lt (h.bounds v hv).2
  have hmx : Exposed c.buddy.tree (mate a) := by
    have hxa : Exposed c.buddy.tree (a / 2) :=
      (h.exposed v hv).above ((Above.half a).trans hc.above)
    apply hxa.child _ mate_half
    exact hc.opened h hv (.half a) (by omega) (by omega)
  obtain ⟨w, hw, hmw⟩ := e.live_below h (by have := mate_pos ha1; omega) (mate_lt haL) hmx
    (hc.stopped.resolve_left (by omega))
  refine ⟨w, ?_, hxh.trans (.trans (mate_half ▸ Above.half (mate a)) hmw)⟩
  rw [List.mem_filter]
  refine ⟨hw, ?_⟩
  rw [decide_eq_true_eq]
  rintro rfl
  exact mate_not_above ha1 hc.above hmw

end Combine

theorem Exact.combine (e : Exact L c.buddy.tree nodes) (h : Inv L c nodes) (hv : v ∈ nodes)
    (ha0 : 0 < a) (hc : Combined c.buddy.tree t' v a b) :
    Exact L t' (nodes.filter fun w => w ≠ v) := by
  have haL : a < 2 ^ (L + 1) := hc.above.le.trans_lt (h.bounds v hv).2
  apply e.change (hc.changed h hv)
  · intro m hx hma w hw hmw
    rw [List.mem_filter, decide_eq_true_eq]
    refine ⟨hw, ?_⟩
    rintro rfl
    rcases hmw.total hc.above with ha | ha
    · exact hma ha
    · exact hc.not_below ha0 hx hma ha
  · intro m hm0 hmL _ hma
    by_cases hne : m = a
    · subst hne
      exact exactAt_unused hc.freed
    · have hs := hc.split h hv e hma hm0 hne
      constructor
      · intro hu
        rw [hs] at hu
        exact Node.noConfusion hu
      · intro _
        obtain ⟨d, hdm, hda⟩ := hma.child hne
        have hnot : ¬ Closed (node t' d) := by
          by_cases he : d = a
          · rw [he, hc.freed]
            exact not_closed_unused
          · rw [hc.split h hv e hda (by omega) he]
            exact not_closed_split
        refine ⟨lt_pow_of_child haL hdm hda, hc.live_below h hv e hma hm0 hne, ?_⟩
        intro d' hd1 hd'
        rcases eq_or_mate (hd'.trans hdm.symm) with rfl | rfl
        · exact fun hcl => hnot hcl.1
        · exact fun hcl => hnot hcl.2
      · intro hf
        rw [hs] at hf
        exact Node.noConfusion hf
  · intro m hm0 hmL ho hma
    by_cases hne : m = a
    · subst hne
      obtain ⟨s, hs, hmates⟩ := hc.merged
      cases s with
      | zero =>
        obtain rfl : m = v := by simpa using hs
        have hno : ¬ Opened (node c.buddy.tree m) := by
          rw [h.used m hv]
          exact not_opened_used
        apply (e.room m hm0 hmL hno).congr
        intro d hd hmd
        exact hc.frame fun hdm => hd (hdm.antisymm hmd)
      | succ s =>
        obtain ⟨h1, hu⟩ := hmates s (by omega)
        set d := mate (v / 2 ^ s) with hd
        have hdm : d / 2 = m := by rw [hd, mate_half, hs, div_two_pow_succ]
        have hno : ¬ Opened (node c.buddy.tree d) := by
          rw [hu]
          exact not_opened_unused
        have hdL : d < 2 ^ (L + 1) :=
          mate_lt ((Nat.div_le_self _ _).trans_lt (h.bounds v hv).2)
        obtain ⟨y, hL, hy, hdy, hb⟩ := e.room d (by omega) hdL hno
        refine ⟨y, hL, hy, .trans (hdm ▸ .half d) hdy, ?_⟩
        intro x hne hmx hxy
        rw [hc.frame fun hxm => hne (hxm.antisymm hmx)]
        rcases hxy.total hdy with hxd | hdx
        · rcases hxd.eq_or_half with rfl | hxm
          · exact hu
          · rw [hdm] at hxm
            exact absurd (hxm.antisymm hmx) hne
        · by_cases hxd : x = d
          · rwa [hxd]
          · exact hb x hxd hdx hxy
    · have := hc.split h hv e hma hm0 hne
      exact absurd (.inl this) ho

/-! ## What is found -/

/-- Below an unused node the search finds a node in its row. -/
theorem Exact.find_ne_none (e : Exact L t nodes) (hk : k ≤ L) (hp : place k t 1 = some u) :
    (find k t 1).1 ≠ none := by
  obtain ⟨hroot, hu, hsplit⟩ := place_above hp
  obtain ⟨i, hik, hi⟩ := place_row hp
  have huL : u < 2 ^ (L + 1) := lt_of_row (hik.trans hk) hi
  have hno : ¬ Opened (node t u) := by
    rw [hu]
    exact not_opened_unused
  obtain ⟨y, hL, hy, huy, hb⟩ := e.room u hroot.le huL hno
  set w := y / 2 ^ (L - k) with hw
  have hwy : Above w y := ⟨L - k, rfl⟩
  have hylog : Nat.log 2 y = L := Nat.log_eq_of_pow_le_of_lt_pow hL hy
  have hwk : w / 2 ^ k = 1 := by
    rw [hw, ← div_two_pow_add, Nat.sub_add_cancel hk, ← hylog]
    exact div_pow_log (by have := Nat.two_pow_pos L; omega)
  have huw : Above u w := by
    rcases huy.total hwy with h | ⟨j, hj⟩
    · exact h
    · have hlu := log_of_row hi
      have hlw := log_of_row hwk
      have hw0 : w ≠ 0 := by
        intro h0
        rw [h0, Nat.zero_div] at hwk
        exact Nat.zero_ne_one hwk
      have := log_div (hj ▸ hw0 : u / 2 ^ j ≠ 0)
      rw [hj] at this
      obtain rfl : j = 0 := by omega
      exact ⟨0, by simpa using hj.symm⟩
  have hbelow : ∀ x, Above u x → Above x y → node t x = .unused := by
    intro x hux hxy
    by_cases hxu : x = u
    · rwa [hxu]
    · exact hb x hxu hux hxy
  apply BuddyTree.find_ne_none Nat.one_pos hwk (hbelow w huw hwy)
  intro j _ hjk
  have hxw : Above (w / 2 ^ j) w := ⟨j, rfl⟩
  rcases huw.total hxw with h | h
  · exact .inl (hbelow _ h (hxw.trans hwy))
  · by_cases hxu : w / 2 ^ j = u
    · exact .inl (by rwa [hxu])
    · right
      apply hsplit _ _ hxu h
      apply one_above
      intro h0
      obtain ⟨n, rfl⟩ := Nat.exists_eq_add_of_le hjk
      rw [div_two_pow_add, h0, Nat.zero_div] at hwk
      exact Nat.zero_ne_one hwk

/-! ## Runs -/

/-- A request splits no node with children left over from earlier blocks. -/
def Config.Tidy (c : Config) : Op → Prop
  | .alloc s => ∀ u, place (row c.buddy.level s) c.buddy.tree 1 = some u →
      Clean (2 ^ row c.buddy.level s) c.buddy.tree u
  | .free _ => True

/-- An aligned block for a request of `s` is disjoint from the live ones. -/
def Config.Vacant (c : Config) (s : ℕ) : Prop :=
  ∃ o, blockSize s ∣ o ∧ o + blockSize s ≤ 2 ^ c.buddy.level ∧
    ∀ x ∈ c.live, x.1 + x.2 ≤ o ∨ o + blockSize s ≤ x.1

theorem exact_start (level : ℕ) : Exact level (newBuddy level).tree [] := by
  constructor
  · intro m _ _ _
    exact exactAt_unused rfl
  · intro m hm0 hm _
    obtain ⟨y, hL, hy, hmy⟩ := exists_leaf hm0.ne' hm
    exact ⟨y, hL, hy, hmy, fun b _ _ _ => rfl⟩

theorem Exact.call (e : Exact L c.buddy.tree nodes) (h : Inv L c nodes) (hL : L ≤ 29) {op : Op}
    (ha : c.Allowed op) (ht : c.Tidy op) :
    ∃ n c' nodes', (∀ fuel, c.call (n + fuel) op = some (.ok c')) ∧ Inv L c' nodes' ∧
      Exact L c'.buddy.tree nodes' := by
  cases op with
  | alloc s =>
    have hs : s ≤ 2 ^ L := h.level ▸ ha
    cases hp : place (row L s) c.buddy.tree 1 with
    | none =>
      have hf := find_of_place_none hp
      obtain ⟨n, c', hn, htree, hi⟩ := h.alloc_none hs hL (by rw [hf])
      rw [hf] at htree
      exact ⟨n, c', nodes, fun fuel => (hn fuel).2, hi, htree ▸ e⟩
    | some u =>
      have hcl : Clean (2 ^ row L s) c.buddy.tree u := by
        have := ht u
        rw [h.level] at this
        exact this hp
      obtain ⟨v, t', hf, hfound⟩ := found_of_place hp hcl
      obtain ⟨n, c', r, hn, -, -, hm, hi⟩ := h.alloc_some (v := v) hs hL (by rw [hf])
      rw [hf] at hm
      exact ⟨n, c', v :: nodes, fun fuel => (hn fuel).2, hi, e.mark row_le hfound hm⟩
  | free o =>
    obtain ⟨z, hz⟩ := ha
    obtain ⟨v, hv, rfl, -⟩ := h.node_of_live hz
    obtain ⟨n, c', a, b, hn, ha0, hc, hi⟩ := h.free hv
    exact ⟨n, c', _, hn, hi, e.combine h hv ha0 hc⟩

/-- A vacant block is one of a node that is related to no live node. -/
theorem Inv.node_of_vacant (h : Inv L c nodes) (hs : s ≤ 2 ^ L) (hv : c.Vacant s) :
    ∃ w, w / 2 ^ row L s = 1 ∧ ∀ v ∈ nodes, ¬ Above v w ∧ ¬ Above w v := by
  obtain ⟨o, ⟨q, hq⟩, hle, hfree⟩ := hv
  rw [h.level] at hle
  rw [blockSize_eq hs] at hq hle hfree
  set k := row L s with hk
  have hpow : 2 ^ L = 2 ^ k * 2 ^ (L - k) := by rw [← pow_add, Nat.add_sub_cancel' row_le]
  have hz := Nat.two_pow_pos (L - k)
  have hqk : q < 2 ^ k := by
    have h₁ : 2 ^ (L - k) * q < 2 ^ (L - k) * 2 ^ k := by
      rw [mul_comm _ (2 ^ k), ← hpow]
      omega
    exact Nat.lt_of_mul_lt_mul_left h₁
  have hrow : (2 ^ k + q) / 2 ^ k = 1 := by
    rw [Nat.add_div_left _ (Nat.two_pow_pos k), Nat.div_eq_of_lt hqk]
  have hw0 : 2 ^ k + q ≠ 0 := by
    have := Nat.two_pow_pos k
    omega
  have hwL := lt_of_row row_le hrow
  have hsz : size L (2 ^ k + q) = 2 ^ (L - k) := by rw [size, log_of_row hrow]
  have hoff : offset L (2 ^ k + q) = o := by
    have := add_offset hw0 hwL
    rw [hsz, add_mul, ← hpow, mul_comm q, ← hq] at this
    omega
  have hmem : ∀ x < 2 ^ L, (o ≤ x ∧ x < o + 2 ^ (L - k)) ↔ Above (2 ^ k + q) (2 ^ L + x) := by
    intro x hx
    rw [← mem_block_iff hw0 hwL hx, hoff, hsz]
  refine ⟨2 ^ k + q, hrow, ?_⟩
  intro v hv
  obtain ⟨hv0, hvL⟩ := h.bounds v hv
  have hdis := hfree (offset L v, size L v) (by
    rw [h.live]
    exact List.mem_map_of_mem hv)
  have hvb := offset_add_le hv0 hvL
  have hvp := size_pos (L := L) (v := v)
  simp only at hdis
  constructor
  · intro ha
    have hx : o < 2 ^ L := by omega
    have hmo := (mem_block_iff hv0 hvL hx).mpr (ha.trans ((hmem o hx).mp ⟨le_rfl, by omega⟩))
    omega
  · intro ha
    have hx : offset L v < 2 ^ L := by omega
    have hmo := (hmem _ hx).mpr (ha.trans ((mem_block_iff hv0 hvL hx).mp ⟨le_rfl, by omega⟩))
    omega

theorem Inv.vacant_of_find (h : Inv L c nodes) (hs : s ≤ 2 ^ L) (hL : L ≤ 29)
    (hf : (find (row L s) c.buddy.tree 1).1 = some v) : c.Vacant s := by
  obtain ⟨-, c', -, -, -, hlive, -, hi⟩ := h.alloc_some hs hL hf
  have hsafe := hi.safe
  have hhead : (offset L v, blockSize s) ∈ c'.live := by
    rw [hlive]
    exact List.mem_cons_self
  obtain ⟨hle, -, hdvd⟩ := hsafe.bounds _ hhead
  refine ⟨offset L v, hdvd, by rwa [h.level], ?_⟩
  have hdis := hsafe.disjoint
  rw [hlive, List.pairwise_cons] at hdis
  intro x hx
  exact (hdis.1 x hx).symm

theorem Exact.find_eq_none_iff (e : Exact L c.buddy.tree nodes) (h : Inv L c nodes)
    (hs : s ≤ 2 ^ L) (hL : L ≤ 29) :
    (find (row L s) c.buddy.tree 1).1 = none ↔ ¬ c.Vacant s := by
  constructor
  · intro hf hvac
    obtain ⟨w, hrow, hfree⟩ := h.node_of_vacant hs hvac
    have hw0 : w ≠ 0 := by
      rintro rfl
      rw [Nat.zero_div] at hrow
      exact Nat.zero_ne_one hrow
    have hroot : Exposed c.buddy.tree 1 := by
      intro a ha hne ha1
      have := ha1.le
      omega
    have hp := e.place_ne_none h hw0 (lt_of_row row_le hrow) hfree Nat.one_pos hrow hroot
    obtain ⟨u, hu⟩ := Option.ne_none_iff_exists'.mp hp
    exact e.find_ne_none row_le hu hf
  · intro hvac
    cases hf : (find (row L s) c.buddy.tree 1).1 with
    | none => rfl
    | some v => exact absurd (h.vacant_of_find hs hL hf) hvac

theorem Exact.alloc (e : Exact L c.buddy.tree nodes) (h : Inv L c nodes) (hs : s ≤ 2 ^ L)
    (hL : L ≤ 29) : ∃ n o d, (∀ fuel, buddyAlloc (n + fuel) c.buddy s = some (o, d)) ∧
      (o = -1 ↔ ¬ c.Vacant s) := by
  rw [← e.find_eq_none_iff h hs hL]
  cases hf : (find (row L s) c.buddy.tree 1).1 with
  | none =>
    obtain ⟨n, c', hn, -, -⟩ := h.alloc_none hs hL hf
    exact ⟨n, -1, c'.buddy, fun fuel => (hn fuel).1, by simp⟩
  | some v =>
    obtain ⟨n, c', r, hn, -⟩ := h.alloc_some hs hL hf
    exact ⟨n, offset L v, c'.buddy, fun fuel => (hn fuel).1, by simp⟩

/-- A call within the interface that splits no node with children left over. -/
def TidyCall (c : Config) (op : Op) (c' : Config) : Prop :=
  c.Allowed op ∧ c.Tidy op ∧ ∃ fuel, c.call fuel op = some (.ok c')

theorem Exact.runs {ops : List Op} (e : Exact L c.buddy.tree nodes) (h : Inv L c nodes)
    (hL : L ≤ 29) (hr : Runs TidyCall c ops c') :
    ∃ nodes', Inv L c' nodes' ∧ Exact L c'.buddy.tree nodes' := by
  apply hr.invariant (P := fun c => ∃ nodes, Inv L c nodes ∧ Exact L c.buddy.tree nodes)
  · rintro c op c' ⟨nodes, h, e⟩ ⟨ha, ht, fuel, hc⟩
    obtain ⟨n, c₁, nodes', hn, hi, he⟩ := e.call h hL ha ht
    obtain rfl : c' = c₁ := Except.ok.inj (call_unique hn hc)
    exact ⟨nodes', hi, he⟩
  · exact ⟨nodes, h, e⟩

theorem live_of_allocs (hr : Runs TidyCall c (List.replicate i (.alloc s)) c')
    (hc : ∀ x ∈ c.live, x.2 = blockSize s) :
    (∀ x ∈ c'.live, x.2 = blockSize s) ∧ c'.live.length ≤ c.live.length + i := by
  induction i generalizing c with
  | zero =>
    cases hr
    exact ⟨hc, le_rfl⟩
  | succ i ih =>
    rw [List.replicate_succ] at hr
    obtain _ | @⟨_, c₁, _, _, _, ⟨-, -, fuel, hcall⟩, hr⟩ := hr
    obtain ⟨o, -, ho⟩ := Option.map_eq_some_iff.mp hcall
    obtain rfl := Except.ok.inj ho
    have hlive : (∀ x ∈ (if o.1 = -1 then c.live else (o.1.toNat, blockSize s) :: c.live),
        x.2 = blockSize s) ∧
        (if o.1 = -1 then c.live else (o.1.toNat, blockSize s) :: c.live).length ≤
          c.live.length + 1 := by
      split
      · exact ⟨hc, Nat.le_succ _⟩
      · refine ⟨?_, le_rfl⟩
        intro x hx
        rcases List.mem_cons.mp hx with rfl | hx
        · rfl
        · exact hc x hx
    obtain ⟨h₁, h₂⟩ := ih hr hlive.1
    refine ⟨h₁, ?_⟩
    have := hlive.2
    simp only at h₂
    omega

/-- Fewer live blocks of one size than there are places leave one vacant. -/
theorem vacant_of_length (hk : k ≤ c.buddy.level) (hsafe : Safe c.buddy.level c)
    (hc : ∀ x ∈ c.live, x.2 = 2 ^ k) (hb : blockSize s = 2 ^ k)
    (hlen : c.live.length < 2 ^ (c.buddy.level - k)) : c.Vacant s := by
  have hp := Nat.two_pow_pos k
  have hcard : (c.live.map Prod.fst).toFinset.card <
      ((Finset.range (2 ^ (c.buddy.level - k))).image fun q => 2 ^ k * q).card := by
    rw [Finset.card_image_of_injective _ fun q r h => Nat.eq_of_mul_eq_mul_left hp h,
      Finset.card_range]
    apply (List.toFinset_card_le _).trans_lt
    rwa [List.length_map]
  obtain ⟨o, ho, hno⟩ := Finset.exists_mem_notMem_of_card_lt_card hcard
  obtain ⟨q, hq, rfl⟩ := Finset.mem_image.mp ho
  rw [Finset.mem_range] at hq
  refine ⟨2 ^ k * q, by rw [hb]; exact Nat.dvd_mul_right _ _, ?_, ?_⟩
  · rw [hb]
    calc 2 ^ k * q + 2 ^ k = 2 ^ k * (q + 1) := by ring
      _ ≤ 2 ^ k * 2 ^ (c.buddy.level - k) := Nat.mul_le_mul_left _ hq
      _ = 2 ^ c.buddy.level := by rw [← pow_add, Nat.add_sub_cancel' hk]
  · rintro ⟨o, z⟩ hx
    obtain rfl := hc _ hx
    obtain ⟨-, -, r, hr⟩ := hsafe.bounds _ hx
    simp only at hr
    have hne : q ≠ r := by
      rintro rfl
      apply hno
      rw [List.mem_toFinset, ← hr]
      exact List.mem_map_of_mem (f := Prod.fst) hx
    simp only [hb, hr]
    rcases Nat.lt_or_gt_of_ne hne with h | h
    · right
      calc 2 ^ k * q + 2 ^ k = 2 ^ k * (q + 1) := by ring
        _ ≤ 2 ^ k * r := Nat.mul_le_mul_left _ h
    · left
      calc 2 ^ k * r + 2 ^ k = 2 ^ k * (r + 1) := by ring
        _ ≤ 2 ^ k * q := Nat.mul_le_mul_left _ h

theorem blockSize_two_pow : blockSize (2 ^ k) = 2 ^ k := by
  rw [blockSize, if_neg (Nat.two_pow_pos k).ne', Nat.clog_pow 2 k Nat.one_lt_two]

/-- Along every run whose requests split only nodes with unused children, a request fails exactly
when no block for it is vacant. After all blocks are freed, the whole range is available. -/
theorem buddyTree_complete (level : ℕ) (hl : level ≤ 29) (ops : List Op) (c : Config)
    (hr : Runs TidyCall (Config.start level) ops c) :
    (∀ s ≤ 2 ^ level, ∃ n o b, (∀ fuel, buddyAlloc (n + fuel) c.buddy s = some (o, b)) ∧
      (o = -1 ↔ ¬ c.Vacant s)) ∧
    (c.live = [] → ∀ k ≤ level, ∀ i < 2 ^ (level - k), ∀ c',
      Runs TidyCall c (List.replicate i (.alloc (2 ^ k))) c' →
        ∃ n o b, (∀ fuel, buddyAlloc (n + fuel) c'.buddy (2 ^ k) = some (o, b)) ∧ o ≠ -1) := by
  obtain ⟨nodes, h, e⟩ := (exact_start level).runs (start_inv level) hl hr
  refine ⟨fun s hs => e.alloc h hs hl, ?_⟩
  intro hlive k hk i hi c' hr'
  obtain ⟨nodes', h', e'⟩ := e.runs h hl hr'
  obtain ⟨n, o, b, hn, ho⟩ := e'.alloc (s := 2 ^ k) h' (Nat.pow_le_pow_right Nat.two_pos hk) hl
  refine ⟨n, o, b, hn, ?_⟩
  rw [Ne, ho, not_not]
  obtain ⟨hsz, hlen⟩ := live_of_allocs hr' (by simp [hlive])
  rw [blockSize_two_pow] at hsz
  have hlevel := h'.level
  apply vacant_of_length (by rwa [hlevel]) (by rw [hlevel]; exact h'.safe) hsz blockSize_two_pow
  rw [hlevel]
  rw [hlive, List.length_nil] at hlen
  omega

instance Clean.decidable (B : ℕ) (t : ℤ → Node) (u : ℕ) : Decidable (Clean B t u) :=
  decidable_of_iff (∀ j < B, u * 2 ^ j < B →
    node t (2 * (u * 2 ^ j)) = .unused ∧ node t (2 * (u * 2 ^ j) + 1) = .unused) (by
      refine ⟨fun h j hj => ?_, fun h j _ => h j⟩
      rcases Nat.eq_zero_or_pos u with rfl | hu
      · simpa using h 0 (by omega) (by omega)
      · have hlt : j < 2 ^ j := Nat.lt_two_pow_self
        have hle := Nat.le_mul_of_pos_left (2 ^ j) hu
        exact h j (by omega) hj)

instance Config.decidableTidy (c : Config) : DecidablePred c.Tidy
  | .alloc s => inferInstanceAs (Decidable (∀ u ∈ place (row c.buddy.level s) c.buddy.tree 1,
      Clean (2 ^ row c.buddy.level s) c.buddy.tree u))
  | .free _ => .isTrue trivial

/-- The block at `0` is freed between two others, and split for a smaller one. -/
theorem buddyTree_complete_three :
    ∃ c, Runs TidyCall (Config.start 3) [.alloc 3, .alloc 1, .free 0, .alloc 2] c ∧
      c.live = [(0, 2), (4, 1)] ∧
        (∃ n o b, (∀ fuel, buddyAlloc (n + fuel) c.buddy 4 = some (o, b)) ∧
        (o = -1 ↔ ¬ c.Vacant 4)) := by
  have h : (([.alloc 3, .alloc 1, .free 0, .alloc 2] : List Op).foldlM
      (fun (c : Config) op => if c.Tidy op then c.next 16 op else none) (Config.start 3)).map
      Config.live = some [(0, 2), (4, 1)] := by
    decide +kernel
  obtain ⟨c, hc, hlive⟩ := Option.map_eq_some_iff.mp h
  have hr : Runs TidyCall (Config.start 3) [.alloc 3, .alloc 1, .free 0, .alloc 2] c := by
    refine (Runs.of_guard hc).mono fun c op c' ⟨ht, hn⟩ => ?_
    obtain ⟨ha, hcall⟩ := c.allowed_of_next hn
    exact ⟨ha, ht, hcall⟩
  exact ⟨c, hr, hlive, (buddyTree_complete 3 (by decide) _ c hr).1 4 (by decide)⟩

/-- After the block at `0` has been freed, the state of its node is left over below the merged
root, and the block is not found again. -/
theorem buddyTree_left_over :
    ∃ c, Runs (fun c op c' => c.Allowed op ∧ ∃ fuel, c.call fuel op = some (.ok c'))
        (Config.start 1) [.alloc 1, .free 0, .alloc 1] c ∧
      c.live = [(1, 1)] ∧ c.Vacant 1 ∧ (buddyAlloc 8 c.buddy 1).map Prod.fst = some (-1) := by
  have h : (([.alloc 1, .free 0, .alloc 1] : List Op).foldlM (Config.next 8) (Config.start 1)).map
      (fun c => (c.live, c.buddy.level, (buddyAlloc 8 c.buddy 1).map Prod.fst)) =
        some ([(1, 1)], 1, some (-1)) := by
    decide +kernel
  obtain ⟨c, hc, he⟩ := Option.map_eq_some_iff.mp h
  obtain ⟨hlive, hlevel, hmiss⟩ : c.live = [(1, 1)] ∧ c.buddy.level = 1 ∧
      (buddyAlloc 8 c.buddy 1).map Prod.fst = some (-1) := by
    simpa using he
  refine ⟨c, ?_, hlive, ⟨0, Nat.dvd_zero _, ?_, ?_⟩, hmiss⟩
  · exact (Runs.iff_foldlM.mpr hc).mono fun c op c' hn => c.allowed_of_next hn
  · rw [hlevel]
    decide +kernel
  · rw [hlive]
    decide +kernel

end UCore.BuddyTree
