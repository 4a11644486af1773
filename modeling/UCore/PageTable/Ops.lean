import Mathlib.Data.Finset.Prod
import Mathlib.Data.Finset.Max
import UCore.Library.Counting
import UCore.PageTable.Tree

/-! # The operations on page tables

`page_insert`, `page_remove` and `unmap_range` change the translation of the pages they name and
nothing else, and the reference count of a user page is the number of entries that map it.
-/

namespace UCore.PageTable

open Library

def vpns : Finset ℕ := (Finset.range (2 ^ 26)).filter isVpn

theorem mem_vpns {v : ℕ} : v ∈ vpns ↔ isVpn v := by
  simp only [vpns, Finset.mem_filter, Finset.mem_range, and_iff_right_iff_imp]
  exact isVpn.lt

/-- An entry that maps page `p`. -/
def MapsTo (w p : ℕ) : Prop := has w pteV = true ∧ pte2page w = p

instance (w p : ℕ) : Decidable (MapsTo w p) := inferInstanceAs (Decidable (_ ∧ _))

@[simp] theorem not_mapsTo_zero {p : ℕ} : ¬ MapsTo 0 p := by simp [MapsTo]

/-- The directories and page numbers whose entry maps page `p`. -/
def State.maps (s : State) (D : Finset ℕ) (p : ℕ) : Finset (ℕ × ℕ) :=
  (D ×ˢ vpns).filter fun x => MapsTo (s.pte x.1 x.2) p

theorem mem_maps {s : State} {D : Finset ℕ} {p d v : ℕ} :
    (d, v) ∈ s.maps D p ↔ (d ∈ D ∧ isVpn v) ∧ MapsTo (s.pte d v) p := by
  simp [State.maps, mem_vpns]

/-- Well-formed tables with the directories `D` and exact reference counts. -/
structure Inv (s : State) (R : ℕ → Role) (D : Finset ℕ) : Prop where
  wf : Wf s R
  dirs : ∀ p, R p = .root ↔ p ∈ D
  refs : ∀ p, R p = .user → s.ref p = (s.maps D p).card

section Leaf

variable {s : State} {R : ℕ → Role} {d d' i j k l p v v' w : ℕ}

theorem setWord_word (x y : ℕ) :
    (s.setWord l k w).word x y = if x = l ∧ y = k then w else s.word x y := by
  simp only [State.setWord, Function.update_apply]
  split_ifs <;> simp_all

theorem pte_setWord (h : Wf s R) (hl : R l = .leaf d (idx1 v) (idx0 v)) (hd' : R d' = .root)
    (hv' : isVpn v') (ht : Wf (s.setWord l (idx v) w) R) :
    (s.setWord l (idx v) w).pte d' v' = if d' = d ∧ v' = v then w else s.pte d' v' := by
  rcases h.pte_cases hd' hv' with ⟨l', hl', he⟩ | ⟨hn, he⟩
  · rw [ht.pte_leaf hl', he, setWord_word]
    by_cases hc : d' = d ∧ v' = v
    · obtain ⟨rfl, rfl⟩ := hc
      rw [if_pos ⟨h.leaf_unique hl' hl, rfl⟩, if_pos ⟨rfl, rfl⟩]
    · rw [if_neg hc, if_neg]
      rintro ⟨rfl, hi⟩
      rw [hl'] at hl
      simp only [Role.leaf.injEq] at hl
      exact hc ⟨hl.1, idx_inj hl.2.1 hl.2.2 hi⟩
  · rw [ht.pte_none hd' hv' hn, he, if_neg]
    rintro ⟨rfl, rfl⟩
    exact hn l hl

theorem Wf.setLeaf (h : Wf s R) (hl : R l = .leaf d i j)
    (hw : w = 0 ∨ has w pteV = true ∧ R (pte2page w) = .user) : Wf (s.setWord l k w) R := by
  have hne : ∀ x, (∀ d i j, R x ≠ .leaf d i j) → ∀ y, (s.setWord l k w).word x y = s.word x y := by
    intro x hx y
    rw [setWord_word, if_neg]
    rintro ⟨rfl, -⟩
    exact hx _ _ _ hl
  refine ⟨h.free, h.freeRef, ?_, ?_, ?_, ?_, ?_⟩
  · intro d i hd hi
    rw [hne d (by simp [hd])]
    exact h.rootEntry d i hd hi
  · intro m d i hm
    rw [hne d (by simp [(h.mid m d i hm).1])]
    exact h.mid m d i hm
  · intro m d i j hm
    rw [hne m (by simp [hm])]
    exact h.midEntry m d i j hm
  · intro l' d i j hl'
    obtain ⟨hj, m, hm, hv⟩ := h.leaf l' d i j hl'
    refine ⟨hj, m, hm, ?_⟩
    rw [hne m (by simp [hm])]
    exact hv
  · intro l' d i j k' hl' hk'
    rw [setWord_word]
    split
    · exact hw
    · exact h.leafEntry l' d i j k' hl' hk'

theorem exists_vpn (hi : userPart i) (hj : j < 512) (hk : k < 512) :
    ∃ v, isVpn v ∧ idx1 v = i ∧ idx0 v = j ∧ idx v = k := by
  have h : idx1 ((i * 512 + j) * 512 + k) = i ∧ idx0 ((i * 512 + j) * 512 + k) = j ∧
      idx ((i * 512 + j) * 512 + k) = k := by
    unfold idx1 idx0 idx
    omega
  refine ⟨(i * 512 + j) * 512 + k, ?_, h⟩
  rw [isVpn, h.1]
  exact hi

end Leaf

section Relink

variable {s t : State} {R R' : ℕ → Role} {D : Finset ℕ} {d l p v w : ℕ} {ρ : ℕ → ℤ}

theorem maps_congr (h : ∀ d ∈ D, ∀ v, isVpn v → t.pte d v = s.pte d v) :
    t.maps D p = s.maps D p := by
  ext ⟨d, v⟩
  rw [mem_maps, mem_maps, and_congr_right_iff]
  rintro ⟨hd, hv⟩
  rw [h d hd v hv]

theorem card_maps_set (hd : d ∈ D) (hv : isVpn v)
    (h : ∀ d' ∈ D, ∀ v', isVpn v' → t.pte d' v' = if d' = d ∧ v' = v then w else s.pte d' v') :
    ((t.maps D p).card : ℤ) = (s.maps D p).card + (if MapsTo w p then 1 else 0) -
      if MapsTo (s.pte d v) p then 1 else 0 := by
  have hf : t.maps D p = (D ×ˢ vpns).filter fun x =>
      MapsTo (Function.update (fun x : ℕ × ℕ => s.pte x.1 x.2) (d, v) w x) p := by
    apply Finset.filter_congr
    rintro ⟨d', v'⟩ hx
    rw [Finset.mem_product, mem_vpns] at hx
    rw [h d' hx.1 v' hx.2, Function.update_apply]
    simp only [Prod.mk.injEq]
  have hc := card_filter_update (s := D ×ˢ vpns) (f := fun x : ℕ × ℕ => s.pte x.1 x.2) (a := (d, v))
    (b := w) (fun w => MapsTo w p) (by simp [hd, mem_vpns, hv])
  rw [hf]
  change _ = (((D ×ˢ vpns).filter fun x => MapsTo (s.pte x.1 x.2) p).card : ℤ) + _ - _
  split_ifs at hc ⊢ <;> omega

theorem Inv.mapped (k : Inv s R D) (h : (s.maps D p).Nonempty) : R p = .user := by
  obtain ⟨⟨d, v⟩, hx⟩ := h
  obtain ⟨⟨hd, hv⟩, hm, rfl⟩ := mem_maps.mp hx
  rcases k.wf.pte_zero_or ((k.dirs d).mpr hd) hv with h₀ | h₀
  · simp [h₀] at hm
  · exact h₀.2

theorem mapped_of (hd : d ∈ D) (hv : isVpn v) (h : MapsTo (s.pte d v) p) :
    (s.maps D p).Nonempty := ⟨(d, v), mem_maps.mpr ⟨⟨hd, hv⟩, h⟩⟩

/-- An entry is written and the counts become `ρ`. -/
def State.link (s : State) (l k w : ℕ) (ρ : ℕ → ℤ) : State := { s.setWord l k w with ref := ρ }

/-- An entry of a leaf table is written and the counts are adapted to it. -/
theorem relink (k : Inv s R D) (hd : d ∈ D) (hv : isVpn v)
    (hl : R l = .leaf d (idx1 v) (idx0 v))
    (hw : w = 0 ∨ has w pteV = true ∧ R (pte2page w) = .user)
    (hρ : ∀ p, ρ p = s.ref p + (if MapsTo w p then 1 else 0) -
      if MapsTo (s.pte d v) p then 1 else 0) :
    Inv (s.link l (idx v) w ρ) R D ∧
      (∀ d' ∈ D, ∀ v', isVpn v' → (s.link l (idx v) w ρ).pte d' v' =
        if d' = d ∧ v' = v then w else s.pte d' v') ∧
      ∀ p, R p = .user → (s.link l (idx v) w ρ).word p = s.word p := by
  have hwf := k.wf.setLeaf (k := idx v) hl hw
  have hpte : ∀ d' ∈ D, ∀ v', isVpn v' →
      (s.link l (idx v) w ρ).pte d' v' =
        if d' = d ∧ v' = v then w else s.pte d' v' :=
    fun d' hd' v' hv' => pte_setWord k.wf hl ((k.dirs d').mpr hd') hv' hwf
  have hold : ∀ p, MapsTo (s.pte d v) p → R p = .user := fun p h => k.mapped (mapped_of hd hv h)
  have hnew : ∀ p, MapsTo w p → R p = .user := by
    rintro p ⟨h₁, rfl⟩
    rcases hw with rfl | h₀
    · simp at h₁
    · exact h₀.2
  refine ⟨⟨⟨hwf.free, ?_, hwf.rootEntry, hwf.mid, hwf.midEntry, hwf.leaf, hwf.leafEntry⟩,
    k.dirs, ?_⟩, hpte, ?_⟩
  · intro p hp
    have hf : R p = .free := (k.wf.free p).mpr hp
    have h₁ : ¬ MapsTo w p := fun h => by simp [hnew p h] at hf
    have h₂ : ¬ MapsTo (s.pte d v) p := fun h => by simp [hold p h] at hf
    change ρ p = 0
    rw [hρ, k.wf.freeRef p hp]
    simp [h₁, h₂]
  · intro p hp
    change ρ p = _
    rw [hρ, card_maps_set hd hv hpte, k.refs p hp]
  · intro p hp
    funext y
    change (s.setWord l (idx v) w).word p y = _
    rw [setWord_word, if_neg]
    rintro ⟨rfl, -⟩
    simp [hl] at hp

/-- An unmapped user page is given back. -/
theorem Inv.freePage (k : Inv s R D) (hp : R p = .user) (hm : s.maps D p = ∅) :
    Inv (s.freePage p) (Function.update R p .free) D := by
  have hR : ∀ x, x ≠ p → Function.update R p .free x = R x := fun x hx => by simp [hx]
  have hold : ∀ x, R x ≠ .user → x ≠ p := fun x hx h => hx (h ▸ hp)
  have hne : ∀ x y, Function.update R p .free x = y → y ≠ .free → R x = y ∧ x ≠ p := by
    rintro x y hx hy
    rcases eq_or_ne x p with rfl | hxp
    · simp [hy.symm] at hx
    · exact ⟨(hR x hxp).symm.trans hx, hxp⟩
  refine ⟨⟨?_, ?_, ?_, ?_, ?_, ?_, ?_⟩, ?_, ?_⟩
  · intro x
    change _ ↔ x ∈ insert p s.free
    rw [Finset.mem_insert, ← k.wf.free x]
    rcases eq_or_ne x p with rfl | hx
    · simp
    · simp [hx]
  · intro x hx
    change Function.update s.ref p 0 x = 0
    rcases eq_or_ne x p with rfl | hxp
    · simp
    · rw [Function.update_of_ne hxp]
      exact k.wf.freeRef x (Finset.mem_of_mem_insert_of_ne hx hxp)
  · intro d i hd hi hv
    have hr := k.wf.rootEntry d i (hne d _ hd (by simp)).1 hi hv
    exact (hR _ (hold _ fun h => Role.noConfusion (hr.symm.trans h))).trans hr
  · intro m d i hm
    have := k.wf.mid m d i (hne m _ hm (by simp)).1
    exact ⟨(hR _ (hold _ (by simp [this.1]))).trans this.1, this.2⟩
  · intro m d i j hm hj hv
    have hr := k.wf.midEntry m d i j (hne m _ hm (by simp)).1 hj hv
    exact (hR _ (hold _ fun h => Role.noConfusion (hr.symm.trans h))).trans hr
  · intro l d i j hl
    obtain ⟨hj, m, hm, hv⟩ := k.wf.leaf l d i j (hne l _ hl (by simp)).1
    exact ⟨hj, m, (hR _ (hold _ (by simp [hm]))).trans hm, hv⟩
  · intro l d i j k' hl hk'
    have hl' := (hne l _ hl (by simp)).1
    rcases k.wf.leafEntry l d i j k' hl' hk' with h₀ | ⟨h₁, h₂⟩
    · exact .inl h₀
    · refine .inr ⟨h₁, (hR _ ?_).trans h₂⟩
      -- an entry that still mapped the page would be one of its mappings
      intro he
      obtain ⟨hj, m, hm', -⟩ := k.wf.leaf l d i j hl'
      obtain ⟨hd, hi, -⟩ := k.wf.mid m d i hm'
      obtain ⟨v, hv, rfl, rfl, rfl⟩ := exists_vpn hi hj hk'
      have : (d, v) ∈ s.maps D p := by
        rw [mem_maps, k.wf.pte_leaf hl']
        exact ⟨⟨(k.dirs d).mp hd, hv⟩, h₁, he⟩
      simp [hm] at this
  · intro x
    rw [← k.dirs x]
    rcases eq_or_ne x p with rfl | hx
    · simp [hp]
    · simp [hx]
  · intro x hx
    obtain ⟨hx, hxp⟩ := hne x _ hx (by simp)
    change Function.update s.ref p 0 x = _
    rw [Function.update_of_ne hxp]
    exact k.refs x hx

end Relink

/-- The pages in `S`, and no others, were given back, once each and with reference counts that
satisfy `P`. -/
def Freed (P : ℤ → Prop) (s t : State) (S : ℕ → Prop) : Prop :=
  ∃ l, t.freed = s.freed ++ l ∧ (∀ x ∈ l, P x.2) ∧ (l.map Prod.fst).Nodup ∧
    ∀ p, p ∈ l.map Prod.fst ↔ S p

namespace Freed

variable {P : ℤ → Prop} {s t u : State} {S S' S'' : ℕ → Prop}

theorem nil (h : t.freed = s.freed) (hS : ∀ p, ¬ S p) : Freed P s t S :=
  ⟨[], by simp [h], by simp, by simp, fun p => by simp [hS p]⟩

theorem single {q : ℕ} {n : ℤ} (h : t.freed = s.freed ++ [(q, n)]) (hn : P n)
    (hS : ∀ p, S p ↔ p = q) : Freed P s t S :=
  ⟨[(q, n)], h, by simpa using hn, by simp, fun p => by simp [hS p]⟩

theorem log (h : Freed P s t S) : ∃ l, t.freed = s.freed ++ l ∧ ∀ x ∈ l, P x.2 := by
  obtain ⟨l, hl, h₀, -⟩ := h
  exact ⟨l, hl, h₀⟩

theorem mono {Q : ℤ → Prop} (h : Freed P s t S) (hQ : ∀ n, P n → Q n) : Freed Q s t S := by
  obtain ⟨l, hl, h₀, h₁⟩ := h
  exact ⟨l, hl, fun x hx => hQ _ (h₀ x hx), h₁⟩

theorem congr (h : Freed P s t S) (hS : ∀ p, S p ↔ S' p) : Freed P s t S' := by
  obtain ⟨l, hl, h₀, hn, hm⟩ := h
  exact ⟨l, hl, h₀, hn, fun p => (hm p).trans (hS p)⟩

theorem unique {Q : ℤ → Prop} (h : Freed P s t S) (h' : Freed Q s t S') (p : ℕ) :
    S p ↔ S' p := by
  obtain ⟨l, hl, -, -, hm⟩ := h
  obtain ⟨l', hl', -, -, hm'⟩ := h'
  obtain rfl : l = l' := List.append_cancel_left (hl.symm.trans hl')
  rw [← hm, hm']

theorem trans (h : Freed P s t S) (h' : Freed P t u S') (hd : ∀ p, S p → ¬ S' p)
    (hS : ∀ p, S'' p ↔ S p ∨ S' p) : Freed P s u S'' := by
  obtain ⟨l, hl, h₀, hn, hm⟩ := h
  obtain ⟨l', hl', h₀', hn', hm'⟩ := h'
  refine ⟨l ++ l', by rw [hl', hl, List.append_assoc], fun x hx => ?_, ?_, fun p => ?_⟩
  · exact (List.mem_append.mp hx).elim (h₀ x) (h₀' x)
  · rw [List.map_append, List.nodup_append']
    exact ⟨hn, hn', fun p hp hp' => hd p ((hm p).mp hp) ((hm' p).mp hp')⟩
  · rw [List.map_append, List.mem_append, hm, hm', hS]

end Freed

/-- The translations become `f`. A page is given back, with no references, when it was mapped
before and is not mapped any more. -/
structure Edit (s : State) (R : ℕ → Role) (D : Finset ℕ) (f : ℕ → ℕ → ℕ) (t : State)
    (R' : ℕ → Role) : Prop where
  inv : Inv t R' D
  pte : ∀ d ∈ D, ∀ v, isVpn v → t.pte d v = f d v
  user : ∀ p, R' p = .user ↔ R p = .user ∧ ((s.maps D p).Nonempty → (t.maps D p).Nonempty)
  role : ∀ p, R p ≠ .free → R p ≠ .user → R' p = R p
  other : ∀ p, R' p = .other → R p = .other
  data : ∀ p, R' p = .user → t.word p = s.word p
  freed : Freed (· = 0) s t fun p => R p = .user ∧ R' p ≠ .user

section Entries

variable {α : Type*} (f : ℕ → ℕ → α)

/-- The translations `f` with one entry changed. -/
def setEntry (d v : ℕ) (w : α) : ℕ → ℕ → α :=
  fun d' v' => if d' = d ∧ v' = v then w else f d' v'

/-- The translations `f` with the pages from `a` to `b` set to `z`. -/
def clearRange (z : α) (d a b : ℕ) : ℕ → ℕ → α :=
  fun d' v' => if d' = d ∧ a ≤ v' ∧ v' < b then z else f d' v'

theorem setEntry_self (d v : ℕ) : setEntry f d v (f d v) = f := by
  funext d' v'
  unfold setEntry
  split
  · rename_i h
    rw [h.1, h.2]
  · rfl

end Entries

namespace Edit

variable {s t u : State} {R R' R'' : ℕ → Role} {D : Finset ℕ} {f g : ℕ → ℕ → ℕ} {p : ℕ}

theorem congr (e : Edit s R D f t R') (h : ∀ d ∈ D, ∀ v, isVpn v → f d v = g d v) :
    Edit s R D g t R' :=
  ⟨e.inv, fun d hd v hv => (e.pte d hd v hv).trans (h d hd v hv), e.user, e.role, e.other,
    e.data, e.freed⟩

theorem refl (k : Inv s R D) : Edit s R D s.pte s R :=
  ⟨k, fun _ _ _ _ => rfl, by simp, fun _ _ _ => rfl, fun _ hp => hp, fun _ _ => rfl,
    .nil rfl (by simp)⟩

theorem other_iff (e : Edit s R D f t R') : R' p = .other ↔ R p = .other :=
  ⟨e.other p, fun h => (e.role p (by simp [h]) (by simp [h])).trans h⟩

theorem trans (e : Edit s R D f t R') (e' : Edit t R' D g u R'')
    (hm : ∀ p, (t.maps D p).Nonempty → (s.maps D p).Nonempty) : Edit s R D g u R'' where
  inv := e'.inv
  pte := e'.pte
  user p := by
    constructor
    · intro hp
      obtain ⟨hp', htu⟩ := (e'.user p).mp hp
      obtain ⟨hp, hst⟩ := (e.user p).mp hp'
      exact ⟨hp, fun h => htu (hst h)⟩
    · rintro ⟨hp, hsu⟩
      rcases Finset.eq_empty_or_nonempty (s.maps D p) with hs | hs
      · have ht : ¬ (t.maps D p).Nonempty := fun h => by simpa [hs] using hm p h
        refine (e'.user p).mpr ⟨(e.user p).mpr ⟨hp, fun h => ?_⟩, fun h => absurd h ht⟩
        simp [hs] at h
      · exact e'.inv.mapped (hsu hs)
  role p hf hu := by
    have := e.role p hf hu
    rw [e'.role p (by rwa [this]) (by rwa [this]), this]
  other p hp := e.other p (e'.other p hp)
  data p hp := (e'.data p hp).trans (e.data p ((e'.user p).mp hp).1)
  freed := by
    refine e.freed.trans e'.freed (fun p h h' => h.2 h'.1) fun p => ?_
    have h₁ := fun hp => ((e.user p).mp hp).1
    have h₂ := fun hp => ((e'.user p).mp hp).1
    tauto

end Edit

/-- An edit that takes no page from the allocator. -/
structure Trim (s : State) (R : ℕ → Role) (D : Finset ℕ) (f : ℕ → ℕ → ℕ) (t : State)
    (R' : ℕ → Role) : Prop extends Edit s R D f t R' where
  keeps : ∀ p, R' p = R p ∨ R p = .user ∧ R' p = .free

namespace Trim

variable {s t u : State} {R R' R'' : ℕ → Role} {D : Finset ℕ} {f g : ℕ → ℕ → ℕ} {p : ℕ}

theorem congr (e : Trim s R D f t R') (h : ∀ d ∈ D, ∀ v, isVpn v → f d v = g d v) :
    Trim s R D g t R' := ⟨e.toEdit.congr h, e.keeps⟩

theorem refl (k : Inv s R D) : Trim s R D s.pte s R := ⟨.refl k, fun _ => .inl rfl⟩

theorem trans (e : Trim s R D f t R') (e' : Trim t R' D g u R'')
    (hm : ∀ p, (t.maps D p).Nonempty → (s.maps D p).Nonempty) : Trim s R D g u R'' where
  toEdit := e.toEdit.trans e'.toEdit hm
  keeps p := by
    rcases e.keeps p with h | ⟨h, h'⟩
    · rw [← h]
      exact e'.keeps p
    · rcases e'.keeps p with h'' | ⟨h'', -⟩
      · exact .inr ⟨h, h''.trans h'⟩
      · simp [h'] at h''

theorem role_iff (e : Trim s R D f t R') {x : Role} (hu : x ≠ .user) (hf : x ≠ .free) :
    R' p = x ↔ R p = x := by
  rcases e.keeps p with h | ⟨h, h'⟩
  · rw [h]
  · rw [h, h']
    exact ⟨fun h => absurd h.symm hf, fun h => absurd h.symm hu⟩

end Trim

section Ops

variable {s t : State} {R R' : ℕ → Role} {D : Finset ℕ} {d l la p page perm v w : ℕ}

theorem Grow.pte_eq (k : Inv s R D) (g : Grow s R t R') :
    ∀ d ∈ D, ∀ v, isVpn v → t.pte d v = s.pte d v :=
  fun d hd v hv => g.pte d v ((k.dirs d).mpr hd) hv

theorem Inv.grow (k : Inv s R D) (g : Grow s R t R') : Inv t R' D where
  wf := g.wf
  dirs p := by rw [g.root_iff, k.dirs]
  refs p hp := by
    have hp' := g.user_iff.mp hp
    rw [g.ref p (by simp [hp']), k.refs p hp', maps_congr (g.pte_eq k)]

theorem Grow.edit (k : Inv s R D) (g : Grow s R t R') : Edit s R D s.pte t R' where
  inv := k.grow g
  pte := g.pte_eq k
  user p := by
    rw [g.user_iff, maps_congr (g.pte_eq k)]
    simp
  role p hf _ := g.role p hf
  other p hp := by
    by_cases hf : R p = .free
    · rcases g.taken p hf with h | ⟨d, i, h⟩ | ⟨d, i, j, h⟩ <;> simp [h] at hp
    · rwa [g.role p hf] at hp
  data p hp := g.data p (g.user_iff.mp hp)
  freed := .nil g.freed fun p h => h.2 (g.user_iff.mpr h.1)

theorem Grow.trans_edit {u : State} {R'' : ℕ → Role} {f : ℕ → ℕ → ℕ} (k : Inv s R D)
    (g : Grow s R t R') (e : Edit t R' D f u R'') : Edit s R D f u R'' := by
  refine (g.edit k).trans e fun p h => ?_
  rwa [maps_congr (g.pte_eq k)] at h

theorem relink_keep {ρ : ℕ → ℤ} (k : Inv s R D) (hd : d ∈ D) (hv : isVpn v)
    (hl : R l = .leaf d (idx1 v) (idx0 v))
    (hw : w = 0 ∨ has w pteV = true ∧ R (pte2page w) = .user)
    (hρ : ∀ p, ρ p = s.ref p + (if MapsTo w p then 1 else 0) -
      if MapsTo (s.pte d v) p then 1 else 0)
    (hkeep : ∀ p, MapsTo (s.pte d v) p → ρ p ≠ 0) :
    Edit s R D (setEntry s.pte d v w) (s.link l (idx v) w ρ) R := by
  obtain ⟨k', hpte, hdata⟩ := relink k hd hv hl hw hρ
  refine ⟨k', hpte, fun p => ⟨fun hp => ⟨hp, ?_⟩, And.left⟩, fun _ _ _ => rfl,
    fun _ hp => hp, hdata, .nil rfl (by simp)⟩
  rintro ⟨⟨d', v'⟩, hx⟩
  obtain ⟨⟨hd', hv'⟩, hm⟩ := mem_maps.mp hx
  by_cases hc : d' = d ∧ v' = v
  · rw [hc.1, hc.2] at hm
    have hr : ρ p = _ := k'.refs p hp
    rw [← Finset.card_pos]
    have := hkeep p hm
    omega
  · refine mapped_of hd' hv' ?_
    rwa [hpte d' hd' v' hv', if_neg hc]

/-- One entry changes and the page that it mapped is given back. -/
theorem relink_drop {ρ : ℕ → ℤ} (k : Inv s R D) (hd : d ∈ D) (hv : isVpn v)
    (hl : R l = .leaf d (idx1 v) (idx0 v))
    (hw : w = 0 ∨ has w pteV = true ∧ R (pte2page w) = .user)
    (hρ : ∀ p, ρ p = s.ref p + (if MapsTo w p then 1 else 0) -
      if MapsTo (s.pte d v) p then 1 else 0)
    (hm : MapsTo (s.pte d v) p) (h₀ : ρ p = 0) :
    Edit s R D (setEntry s.pte d v w) ((s.link l (idx v) w ρ).freePage p)
      (Function.update R p .free) := by
  obtain ⟨k', hpte, hdata⟩ := relink k hd hv hl hw hρ
  have hp : R p = .user := k.mapped (mapped_of hd hv hm)
  have hr : ρ p = _ := k'.refs p hp
  have hn : (s.link l (idx v) w ρ).maps D p = ∅ := by
    rw [← Finset.card_eq_zero]
    omega
  have hne : ∀ x, Function.update R p .free x = .user → x ≠ p ∧ R x = .user := by
    intro x hx
    rcases eq_or_ne x p with rfl | hxp
    · simp at hx
    · exact ⟨hxp, by simpa [hxp] using hx⟩
  have hrole : ∀ x, R x ≠ .free → R x ≠ .user → Function.update R p .free x = R x := by
    rintro x - hx
    rw [Function.update_of_ne]
    rintro rfl
    exact hx hp
  have hother : ∀ x, Function.update R p .free x = .other → R x = .other := by
    intro x hx
    rcases eq_or_ne x p with rfl | hxp
    · simp at hx
    · simpa [hxp] using hx
  refine ⟨k'.freePage hp hn, hpte, fun x => ⟨fun hx => ?_, ?_⟩, hrole, hother,
    fun x hx => hdata x (hne x hx).2, .single rfl h₀ fun x => ?_⟩
  · refine ⟨(hne x hx).2, ?_⟩
    rintro ⟨⟨d', v'⟩, hx'⟩
    obtain ⟨⟨hd', hv'⟩, hm'⟩ := mem_maps.mp hx'
    refine mapped_of hd' hv' ?_
    have hc : ¬ (d' = d ∧ v' = v) := by
      rintro ⟨rfl, rfl⟩
      exact (hne x hx).1 (hm'.2.symm.trans hm.2)
    change MapsTo ((s.link l (idx v) w ρ).pte d' v') x
    rwa [hpte d' hd' v' hv', if_neg hc]
  · rintro ⟨hx, hmap⟩
    rcases eq_or_ne x p with rfl | hxp
    · have h := hmap (mapped_of hd hv hm)
      change ((s.link l (idx v) w ρ).maps D x).Nonempty at h
      simp [hn] at h
    · simpa [hxp] using hx
  · rcases eq_or_ne x p with rfl | hxp
    · simp [hp]
    · simp [hxp]

theorem mapsTo_iff (h : has w pteV = true) : MapsTo w p ↔ p = pte2page w := by
  simp [MapsTo, h, eq_comm]

theorem pageRemovePte_edit (k : Inv s R D) (hd : d ∈ D) (hv : isVpn v)
    (hl : R l = .leaf d (idx1 v) (idx0 v)) :
    ∃ R', Trim s R D (setEntry s.pte d v 0) (s.pageRemovePte (l, idx v)) R' := by
  have he : s.read (l, idx v) = s.pte d v := (k.wf.pte_leaf hl).symm
  unfold State.pageRemovePte
  rw [he]
  rcases k.wf.pte_zero_or ((k.dirs d).mpr hd) hv with h₀ | ⟨hV, -⟩
  · rw [h₀, if_neg (by simp)]
    have := setEntry_self s.pte d v
    rw [h₀] at this
    rw [this]
    exact ⟨R, .refl k⟩
  · rw [if_pos hV]
    have hm : MapsTo (s.pte d v) (pte2page (s.pte d v)) := ⟨hV, rfl⟩
    have hρ : ∀ p, (s.pageRefDec (pte2page (s.pte d v))).ref p =
        s.ref p + (if MapsTo 0 p then 1 else 0) - if MapsTo (s.pte d v) p then 1 else 0 := by
      intro p
      simp only [State.pageRefDec, State.setPageRef, Function.update_apply, mapsTo_iff hV,
        not_mapsTo_zero, if_false, add_zero]
      split
      · rename_i h
        rw [h]
      · simp
    dsimp only
    split
    · rename_i h₀
      refine ⟨_, relink_drop k hd hv hl (.inl rfl) hρ hm h₀, fun p => ?_⟩
      rcases eq_or_ne p (pte2page (s.pte d v)) with rfl | hp
      · exact .inr ⟨k.mapped (mapped_of hd hv hm), by simp⟩
      · exact .inl (by simp [hp])
    · rename_i h₀
      refine ⟨R, relink_keep k hd hv hl (.inl rfl) hρ fun p hp => ?_, fun _ => .inl rfl⟩
      rwa [← hp.2]

/-- The entry written by `page_insert`. -/
def leafEntry (page perm : ℕ) : ℕ := pteCreate page (pteV ||| perm)

@[simp] theorem has_leafEntry : has (leafEntry page perm) pteV = true := has_pteV_pteCreate

theorem pte2page_leafEntry (h : perm < 1024) : pte2page (leafEntry page perm) = page :=
  pte2page_pteCreate (pteV_or_lt h)

theorem mapsTo_leafEntry (h : perm < 1024) : MapsTo (leafEntry page perm) p ↔ p = page := by
  rw [mapsTo_iff has_leafEntry, pte2page_leafEntry h]

/-- The second half of `page_insert`, once the entry is found. -/
theorem pageInsert_edit (k : Inv s R D) (hd : d ∈ D) (hv : isVpn v)
    (hl : R l = .leaf d (idx1 v) (idx0 v)) (hp : R page = .user) (hperm : perm < 1024) :
    ∃ R', Edit s R D (setEntry s.pte d v (leafEntry page perm))
      ((if has ((s.pageRefInc page).read (l, idx v)) pteV then
        if pte2page ((s.pageRefInc page).read (l, idx v)) = page then
          (s.pageRefInc page).pageRefDec page
        else (s.pageRefInc page).pageRemovePte (l, idx v)
      else s.pageRefInc page).write (l, idx v) (leafEntry page perm)) R' := by
  have he : (s.pageRefInc page).read (l, idx v) = s.pte d v := (k.wf.pte_leaf hl).symm
  have hw : leafEntry page perm = 0 ∨ has (leafEntry page perm) pteV = true ∧
      R (pte2page (leafEntry page perm)) = .user :=
    .inr ⟨has_leafEntry, by rwa [pte2page_leafEntry hperm]⟩
  rw [he]
  by_cases hV : has (s.pte d v) pteV = true
  · rw [if_pos hV]
    by_cases hpp : pte2page (s.pte d v) = page
    · rw [if_pos hpp]
      have href : ((s.pageRefInc page).pageRefDec page).ref = s.ref := by
        simp [State.pageRefInc, State.pageRefDec, State.setPageRef]
      refine ⟨R, ?_⟩
      have hpos : 0 < s.ref page := by
        rw [k.refs page hp, Int.natCast_pos, Finset.card_pos]
        exact mapped_of hd hv ⟨hV, hpp⟩
      refine relink_keep (ρ := ((s.pageRefInc page).pageRefDec page).ref) k hd hv hl hw ?_ ?_
      · intro p
        rw [href]
        simp only [mapsTo_leafEntry hperm, mapsTo_iff hV, hpp]
        split <;> simp
      · rintro p ⟨-, rfl⟩
        rw [href, hpp]
        omega
    · rw [if_neg hpp, State.pageRemovePte, he, if_pos hV]
      have hm : MapsTo (s.pte d v) (pte2page (s.pte d v)) := ⟨hV, rfl⟩
      have hρ : ∀ p, ((s.pageRefInc page).pageRefDec (pte2page (s.pte d v))).ref p =
          s.ref p + (if MapsTo (leafEntry page perm) p then 1 else 0) -
            if MapsTo (s.pte d v) p then 1 else 0 := by
        intro p
        simp only [State.pageRefInc, State.pageRefDec, State.setPageRef, Function.update_apply,
          mapsTo_iff hV, mapsTo_leafEntry hperm]
        split_ifs <;> simp_all
      have hset : ∀ x : State, (x.write (l, idx v) 0).write (l, idx v) (leafEntry page perm) =
          x.write (l, idx v) (leafEntry page perm) := by
        intro x
        simp [State.write, State.setWord]
      dsimp only
      rw [hset]
      split
      · rename_i h₀
        exact ⟨_, relink_drop k hd hv hl hw hρ hm h₀⟩
      · rename_i h₀
        refine ⟨_, relink_keep k hd hv hl hw hρ fun p hp => ?_⟩
        rwa [← hp.2]
  · rw [if_neg hV]
    refine ⟨R, relink_keep (ρ := (s.pageRefInc page).ref) k hd hv hl hw ?_ ?_⟩
    · intro p
      have : ¬ MapsTo (s.pte d v) p := fun h => hV h.1
      simp only [State.pageRefInc, State.setPageRef, Function.update_apply,
        mapsTo_leafEntry hperm, if_neg this]
      split
      · rename_i h
        rw [h]
        simp
      · simp
    · intro p h
      exact absurd h.1 hV

theorem pageInsert_spec (k : Inv s R D) (hd : d ∈ D) (hv : isVpn (la / pgsize))
    (hp : R page = .user) (hperm : perm < 1024) :
    ∃ ret t R', s.pageInsert d page la perm = (ret, t) ∧
      (ret = -eNoMem ∧ Grow s R t R' ∧
          (∀ l, R l ≠ .leaf d (idx1 (la / pgsize)) (idx0 (la / pgsize))) ∨
        ret = 0 ∧ Edit s R D (setEntry s.pte d (la / pgsize) (leafEntry page perm)) t R') := by
  obtain ⟨o, t, R', hget, w⟩ := getPte_spec true k.wf ((k.dirs d).mpr hd) hv
  unfold State.pageInsert
  rw [hget]
  cases o with
  | none => exact ⟨_, _, _, rfl, .inl ⟨rfl, w.grow, w.missing rfl⟩⟩
  | some l =>
    obtain ⟨R'', e⟩ := pageInsert_edit (k.grow w.grow) hd hv (w.found l rfl)
      (w.grow.user_iff.mpr hp) hperm
    refine ⟨_, _, R'', rfl, .inr ⟨rfl, ?_⟩⟩
    refine (w.grow.trans_edit k e).congr fun d' hd' v' hv' => ?_
    simp only [setEntry, w.grow.pte_eq k d' hd' v' hv']

theorem getPte_false (k : Inv s R D) (hd : d ∈ D) (hv : isVpn (la / pgsize)) :
    (∃ l, s.getPte d la false = (some (l, idx (la / pgsize)), s) ∧
        R l = .leaf d (idx1 (la / pgsize)) (idx0 (la / pgsize))) ∨
      s.getPte d la false = (none, s) ∧
        ∀ l, R l ≠ .leaf d (idx1 (la / pgsize)) (idx0 (la / pgsize)) := by
  obtain ⟨o, t, R', hget, w⟩ := getPte_spec false k.wf ((k.dirs d).mpr hd) hv
  obtain ⟨rfl, rfl⟩ := w.pure rfl
  cases o with
  | none => exact .inr ⟨hget, w.missing rfl⟩
  | some l => exact .inl ⟨l, hget, w.found l rfl⟩

theorem getPage_spec (k : Inv s R D) (hd : d ∈ D) (hv : isVpn (la / pgsize)) :
    (s.getPage d la).1 = (if has (s.pte d (la / pgsize)) pteV then
        some (pte2page (s.pte d (la / pgsize))) else none) ∧
      ∀ ptep ∈ (s.getPage d la).2, s.read ptep = s.pte d (la / pgsize) := by
  unfold State.getPage
  rcases getPte_false k hd hv with ⟨l, hget, hl⟩ | ⟨hget, hn⟩
  · rw [hget, k.wf.pte_leaf hl]
    exact ⟨rfl, by simp [State.read]⟩
  · rw [hget, k.wf.pte_none ((k.dirs d).mpr hd) hv hn]
    simp

theorem pageRemove_spec (k : Inv s R D) (hd : d ∈ D) (hv : isVpn (la / pgsize)) :
    ∃ R', Edit s R D (setEntry s.pte d (la / pgsize) 0) (s.pageRemove d la) R' := by
  unfold State.pageRemove
  rcases getPte_false k hd hv with ⟨l, hget, hl⟩ | ⟨hget, hn⟩
  · rw [hget]
    obtain ⟨R', e⟩ := pageRemovePte_edit k hd hv hl
    exact ⟨R', e.toEdit⟩
  · rw [hget]
    have := setEntry_self s.pte d (la / pgsize)
    rw [k.wf.pte_none ((k.dirs d).mpr hd) hv hn] at this
    rw [this]
    exact ⟨R, .refl k⟩

end Ops

section Unmap

variable {s x y : State} {R R' : ℕ → Role} {D : Finset ℕ} {d a b c e start end' : ℕ}

/-- Pages `a` to `b` of directory `d` are unmapped. -/
def Clears (s : State) (R : ℕ → Role) (D : Finset ℕ) (d a b : ℕ) (t : State) : Prop :=
  ∃ R', Trim s R D (clearRange s.pte 0 d a b) t R'

theorem Clears.refl (k : Inv s R D) : Clears s R D d a a s := by
  refine ⟨R, (Trim.refl k).congr fun d' _ v' _ => ?_⟩
  rw [clearRange, if_neg]
  omega

theorem Clears.skip (h : Clears s R D d a b x) (hab : a ≤ b) (hbc : b ≤ c)
    (hz : ∀ v, b ≤ v → v < c → isVpn v → x.pte d v = 0) (hd : d ∈ D) : Clears s R D d a c x := by
  obtain ⟨R', e⟩ := h
  refine ⟨R', e.congr fun d' hd' v' hv' => ?_⟩
  by_cases hc : d' = d ∧ b ≤ v' ∧ v' < c
  · obtain ⟨rfl, h₁, h₂⟩ := hc
    have h₀ := hz v' h₁ h₂ hv'
    rw [e.pte d' hd v' hv'] at h₀
    rw [h₀, clearRange, if_pos ⟨rfl, by omega, h₂⟩]
  · unfold clearRange
    by_cases hc' : d' = d ∧ a ≤ v' ∧ v' < b
    · rw [if_pos hc', if_pos ⟨hc'.1, hc'.2.1, by omega⟩]
    · rw [if_neg hc', if_neg]
      rintro ⟨rfl, h₁, h₂⟩
      by_cases hb : b ≤ v'
      · exact hc ⟨rfl, hb, h₂⟩
      · exact hc' ⟨rfl, h₁, by omega⟩

theorem Clears.remove (h : Clears s R D d a b x) (hab : a ≤ b)
    (hy : ∀ R', Inv x R' D → ∃ R'', Trim x R' D (setEntry x.pte d b 0) y R'') :
    Clears s R D d a (b + 1) y := by
  obtain ⟨R', e⟩ := h
  obtain ⟨R'', e'⟩ := hy R' e.inv
  refine ⟨R'', (e.trans e' fun p hp => ?_).congr fun d' hd' v' hv' => ?_⟩
  · obtain ⟨⟨d', v'⟩, hx⟩ := hp
    obtain ⟨⟨hd', hv'⟩, hm⟩ := mem_maps.mp hx
    rw [e.pte d' hd' v' hv', clearRange] at hm
    split at hm
    · simp at hm
    · exact mapped_of hd' hv' hm
  · simp only [setEntry, e.pte d' hd' v' hv', clearRange]
    split_ifs <;> first | rfl | omega

theorem userAccess.isVpn (h : userAccess start end') {v : ℕ} (hv : v < end' / pgsize) :
    isVpn v := by
  have := h.2.2
  unfold usertop at this
  unfold pgsize at hv
  constructor
  all_goals
    unfold idx1
    omega

theorem pte_skip {v v' : ℕ} (k : Inv s R D) (hd : d ∈ D)
    (hn : ∀ l, R l ≠ .leaf d (idx1 v) (idx0 v)) (hv' : isVpn v') (h : v' / 512 = v / 512) :
    s.pte d v' = 0 := by
  refine k.wf.pte_none ((k.dirs d).mpr hd) hv' fun l hl => hn l ?_
  have h₁ : idx1 v' = idx1 v ∧ idx0 v' = idx0 v := by
    unfold idx1 idx0
    omega
  rw [← h₁.1, ← h₁.2]
  exact hl

theorem page_lt (ha : a % pgsize = 0) (hb : b % pgsize = 0) (h : a < b) :
    a / pgsize < b / pgsize := by
  unfold pgsize at *
  omega

theorem page_succ (ha : a % pgsize = 0) : (a + pgsize) % pgsize = 0 ∧
    (a + pgsize) / pgsize = a / pgsize + 1 := by
  unfold pgsize at *
  omega

theorem page_round (ha : a % pgsize = 0) : rounddown (a + ptsize) ptsize % pgsize = 0 ∧
    a < rounddown (a + ptsize) ptsize ∧
    ∀ v, a / pgsize ≤ v → v < rounddown (a + ptsize) ptsize / pgsize →
      v / 512 = a / pgsize / 512 := by
  have hr : rounddown (a + ptsize) ptsize = (a / ptsize + 1) * ptsize := by
    unfold rounddown ptsize pgsize
    omega
  rw [hr]
  unfold ptsize pgsize at *
  refine ⟨by omega, by omega, fun v h₁ h₂ => by omega⟩

theorem page_min_le : min b e / pgsize ≤ b / pgsize := Nat.div_le_div_right (min_le_left b e)

theorem page_le_min (hab : a < b) (hae : a < e) : a / pgsize ≤ min b e / pgsize :=
  Nat.div_le_div_right (le_min hab.le hae.le)

/-- One iteration of `unmap_range` unmaps the pages up to its next address. -/
theorem unmapStep_clears (hd : d ∈ D) (hu : userAccess start end') (ha : a % pgsize = 0)
    (hsa : start ≤ a) (hae : a < end') (he : end' % pgsize = 0)
    (h : Clears s R D d (start / pgsize) (a / pgsize) x) :
    ∃ y b, State.unmapStep d end' (a, x) = y.again b end' y ∧ b % pgsize = 0 ∧ a < b ∧
      Clears s R D d (start / pgsize) (min b end' / pgsize) y := by
  obtain ⟨R', e⟩ := id h
  have hv : isVpn (a / pgsize) := hu.isVpn (page_lt ha he hae)
  have hsa' : start / pgsize ≤ a / pgsize := Nat.div_le_div_right hsa
  unfold State.unmapStep
  rcases getPte_false e.inv hd hv with ⟨l, hget, hl⟩ | ⟨hget, hn⟩
  · rw [hget]
    have hlt : a < a + pgsize := by simp [pgsize]
    refine ⟨_, a + pgsize, rfl, (page_succ ha).1, hlt, ?_⟩
    have hb : min (a + pgsize) end' / pgsize = a / pgsize + 1 := by
      unfold pgsize at *
      omega
    rw [hb]
    by_cases hz : x.read (l, idx (a / pgsize)) = 0
    · rw [if_neg (by simpa using hz)]
      refine h.skip hsa' (Nat.le_succ _) (fun v h₁ h₂ _ => ?_) hd
      obtain rfl : v = a / pgsize := by omega
      rw [e.inv.wf.pte_leaf hl]
      exact hz
    · rw [if_pos hz]
      refine Clears.remove h hsa' fun R₁ k₁ => ?_
      rcases getPte_false k₁ hd hv with ⟨l₁, hget₁, hl₁⟩ | ⟨hget₁, -⟩
      · obtain rfl : l = l₁ := by
          rw [hget] at hget₁
          simpa using hget₁
        exact pageRemovePte_edit k₁ hd hv hl₁
      · rw [hget] at hget₁
        simp at hget₁
  · rw [hget]
    obtain ⟨hb, hab, hsame⟩ := page_round ha
    refine ⟨x, rounddown (a + ptsize) ptsize, rfl, hb, hab, ?_⟩
    refine h.skip hsa' (page_le_min hab hae) (fun v h₁ h₂ hv' => ?_) hd
    exact pte_skip e.inv hd hn hv' (hsame v h₁ (h₂.trans_le page_min_le))

/-- `unmap_range` unmaps its pages and nothing else. -/
theorem unmapRange_spec (k : Inv s R D) (hd : d ∈ D) (hs : start % pgsize = 0)
    (he : end' % pgsize = 0) (hu : userAccess start end') :
    ∃ t R', s.unmapRange d start end' = some t ∧
      Trim s R D (clearRange s.pte 0 d (start / pgsize) (end' / pgsize)) t R' := by
  have hspec : ∃ t, s.unmapRange d start end' = some t ∧
      Clears s R D d (start / pgsize) (end' / pgsize) t := by
    unfold State.unmapRange
    rw [if_pos ⟨⟨hs, he⟩, hu⟩]
    apply iterate_spec (fun x => x.1 % pgsize = 0 ∧ start ≤ x.1 ∧ x.1 < end' ∧
      Clears s R D d (start / pgsize) (x.1 / pgsize) x.2) (fun x => end' - x.1)
    · rintro ⟨a, x⟩ ⟨a', x'⟩ ⟨ha, hsa, hae, h⟩ hf
      obtain ⟨y, b, hy, hb, hab, hc⟩ := unmapStep_clears hd hu ha hsa hae he h
      rw [hy, State.again] at hf
      split at hf
      · rename_i hbe
        obtain ⟨rfl, rfl⟩ : b = a' ∧ y = x' := by simpa using hf
        rw [min_eq_left hbe.2.le] at hc
        refine ⟨⟨hb, by dsimp only; omega, hbe.2, hc⟩, ?_⟩
        dsimp only
        omega
      · simp at hf
    · rintro ⟨a, x⟩ r ⟨ha, hsa, hae, h⟩ hf
      obtain ⟨y, b, hy, hb, hab, hc⟩ := unmapStep_clears hd hu ha hsa hae he h
      rw [hy, State.again] at hf
      split at hf
      · simp at hf
      · rename_i hbe
        obtain rfl : y = r := by simpa using hf
        rwa [min_eq_right (by omega)] at hc
    · exact ⟨hs, le_refl _, hu.2.1, .refl k⟩
    · simp
  obtain ⟨t, ht, R', e⟩ := hspec
  exact ⟨t, R', ht, e⟩

end Unmap

end UCore.PageTable
