import UCore.Cow.Model
import UCore.PageTable.Pages

/-! # The copy-on-write invariant

A page with two mappings is writable through neither of them, and every user page is mapped. What
an operation does to the contents of the address spaces is stated by the contents that it leaves
at every page number.
-/

namespace UCore.Cow

open Library PageTable

section Words

variable {p perm i : ℕ}

theorem testBit_leafEntry (h₀ : i ≠ 0) (h : i < 10) :
    (leafEntry p perm).testBit i = perm.testBit i := by
  have hV : Nat.testBit pteV i = false := by
    rw [show pteV = 2 ^ 0 from rfl, Nat.testBit_two_pow]
    simpa using h₀.symm
  rw [leafEntry, testBit_pteCreate h, Nat.testBit_or, hV]
  simp [h₀]

theorem has_pteW_leafEntry : has (leafEntry p perm) pteW = has perm pteW := by
  rw [has_pteW, has_pteW, testBit_leafEntry (by omega) (by omega)]

theorem has_pteCow_leafEntry : has (leafEntry p perm) pteCow = has perm pteCow := by
  rw [has_pteCow, has_pteCow, testBit_leafEntry (by omega) (by omega)]

theorem cowPerm_lt (h : perm < 1024) : clearW perm ||| pteCow < 1024 :=
  Nat.or_lt_two_pow (n := 10) (lt_of_le_of_lt Nat.and_le_left h) (by decide)

theorem has_pteW_cowPerm : has (clearW perm ||| pteCow) pteW = false := by
  have h₁ : Nat.testBit (0xFFFFFFFF ^^^ pteW) 2 = false := by decide
  have h₂ : Nat.testBit pteCow 2 = false := by decide
  rw [has_pteW, clearW, Nat.testBit_or, Nat.testBit_and, h₁, h₂]
  simp

theorem orCow_lt (h : perm < 1024) : perm ||| pteCow < 1024 :=
  Nat.or_lt_two_pow (n := 10) h (by decide)

theorem has_pteW_orCow (h : has perm pteW = false) : has (perm ||| pteCow) pteW = false := by
  have h₂ : Nat.testBit pteCow 2 = false := by decide
  rw [has_pteW] at h
  rw [has_pteW, Nat.testBit_or, h, h₂]
  rfl

theorem copyPerm_lt : p &&& (pteUser ||| pteA ||| pteD) < 1024 :=
  lt_of_le_of_lt Nat.and_le_right (by decide)

theorem has_pteW_copyPerm : has (p &&& (pteUser ||| pteA ||| pteD)) pteW = has p pteW := by
  have h : Nat.testBit (pteUser ||| pteA ||| pteD) 2 = true := by decide
  rw [has_pteW, has_pteW, Nat.testBit_and, h, Bool.and_true]

theorem vmaPerm_spec (vmFlags : ℕ) : vmaPerm vmFlags < 1024 ∧
    has (vmaPerm vmFlags) pteCow = false ∧
    (has vmFlags vmWrite = true → has (vmaPerm vmFlags) pteW = true) := by
  unfold vmaPerm
  generalize has vmFlags vmWrite = w
  generalize has vmFlags vmRead = r
  generalize has vmFlags vmExec = x
  revert w r x
  decide

end Words

/-- No entry is both writable and copied on write, and no page with two mappings is writable. -/
structure Exclusive (f : ℕ → ℕ → ℕ) (D : Finset ℕ) : Prop where
  cow : ∀ d ∈ D, ∀ v, isVpn v → has (f d v) pteCow = true → has (f d v) pteW = false
  shared : ∀ d ∈ D, ∀ v, isVpn v → ∀ d' ∈ D, ∀ v', isVpn v' → (d, v) ≠ (d', v') →
    ∀ p, MapsTo (f d v) p → MapsTo (f d' v') p → has (f d v) pteW = false

namespace Exclusive

variable {f g : ℕ → ℕ → ℕ} {D : Finset ℕ} {d v w : ℕ}

theorem congr (h : Exclusive f D) (hg : ∀ d ∈ D, ∀ v, isVpn v → g d v = f d v) :
    Exclusive g D where
  cow d hd v hv := by
    rw [hg d hd v hv]
    exact h.cow d hd v hv
  shared d hd v hv d' hd' v' hv' := by
    rw [hg d hd v hv, hg d' hd' v' hv']
    exact h.shared d hd v hv d' hd' v' hv'

theorem setEntry (h : Exclusive f D) (hw : has w pteCow = true → has w pteW = false)
    (hp : ∀ p, MapsTo w p → ∀ d' ∈ D, ∀ v', isVpn v' → (d', v') ≠ (d, v) → MapsTo (f d' v') p →
      has w pteW = false ∧ has (f d' v') pteW = false) :
    Exclusive (PageTable.setEntry f d v w) D where
  cow d' hd' v' hv' := by
    unfold PageTable.setEntry
    split
    · exact hw
    · exact h.cow d' hd' v' hv'
  shared d₁ h₁ v₁ hv₁ d₂ h₂ v₂ hv₂ hne p := by
    unfold PageTable.setEntry
    split
    · rename_i he₁
      rw [if_neg fun he₂ => hne (by rw [he₁.1, he₁.2, he₂.1, he₂.2])]
      intro hm₁ hm₂
      refine (hp p hm₁ d₂ h₂ v₂ hv₂ ?_ hm₂).1
      rw [← he₁.1, ← he₁.2]
      exact hne.symm
    · rename_i he₁
      split
      · rename_i he₂
        intro hm₁ hm₂
        refine (hp p hm₂ d₁ h₁ v₁ hv₁ ?_ hm₁).2
        rw [← he₂.1, ← he₂.2]
        exact hne
      · exact h.shared d₁ h₁ v₁ hv₁ d₂ h₂ v₂ hv₂ hne p

theorem clearRange {a b : ℕ} (h : Exclusive f D) :
    Exclusive (PageTable.clearRange f 0 d a b) D where
  cow d' hd' v' hv' := by
    unfold PageTable.clearRange
    split
    · simp
    · exact h.cow d' hd' v' hv'
  shared d₁ h₁ v₁ hv₁ d₂ h₂ v₂ hv₂ hne p := by
    unfold PageTable.clearRange
    split
    · simp
    · split
      · simp
      · exact h.shared d₁ h₁ v₁ hv₁ d₂ h₂ v₂ hv₂ hne p

end Exclusive

/-- The invariant of the copy-on-write code. -/
structure CowInv (s : State) (R : ℕ → Role) (D : Finset ℕ) : Prop where
  inv : Inv s R D
  full : ∀ p, R p = .user → (s.maps D p).Nonempty
  excl : Exclusive s.pte D

theorem CowInv.edit {s t : State} {R R' : ℕ → Role} {D : Finset ℕ} {f : ℕ → ℕ → ℕ}
    (c : CowInv s R D) (e : Edit s R D f t R') (h : Exclusive f D) : CowInv t R' D where
  inv := e.inv
  full p hp := by
    obtain ⟨hu, hm⟩ := (e.user p).mp hp
    exact hm (c.full p hu)
  excl := h.congr e.pte

theorem CowInv.unique {s : State} {R : ℕ → Role} {D : Finset ℕ} {d v d' v' p : ℕ}
    (c : CowInv s R D) (hr : s.ref p ≤ 1) (hd : d ∈ D) (hv : isVpn v) (hd' : d' ∈ D)
    (hv' : isVpn v') (hm : MapsTo (s.pte d v) p) (hm' : MapsTo (s.pte d' v') p) :
    (d, v) = (d', v') := by
  have hmem : (d, v) ∈ s.maps D p := mem_maps.mpr ⟨⟨hd, hv⟩, hm⟩
  have hmem' : (d', v') ∈ s.maps D p := mem_maps.mpr ⟨⟨hd', hv'⟩, hm'⟩
  rw [c.inv.refs p (c.inv.mapped ⟨_, hmem⟩)] at hr
  exact Finset.card_le_one.mp (by omega) _ hmem _ hmem'

theorem CowInv.readOnly {s : State} {R : ℕ → Role} {D : Finset ℕ} {d v p : ℕ}
    (c : CowInv s R D) (hr : 1 < s.ref p) (hd : d ∈ D) (hv : isVpn v) (hm : MapsTo (s.pte d v) p) :
    has (s.pte d v) pteW = false := by
  have hmem : (d, v) ∈ s.maps D p := mem_maps.mpr ⟨⟨hd, hv⟩, hm⟩
  rw [c.inv.refs p (c.inv.mapped ⟨_, hmem⟩)] at hr
  obtain ⟨⟨d', v'⟩, hx, hne⟩ := Finset.exists_mem_ne (s := s.maps D p) (by omega) (d, v)
  obtain ⟨⟨hd', hv'⟩, hm'⟩ := mem_maps.mp hx
  exact c.excl.shared d hd v hv d' hd' v' hv' hne.symm p hm hm'

def pageOf (w : ℕ) : Option ℕ := if has w pteV then some (pte2page w) else none

/-- The contents of the page at a page number. -/
def view (s : State) (d v : ℕ) : Option (ℕ → ℕ) := (pageOf (s.pte d v)).map s.word

section Views

variable {s t u : State} {R R' R'' : ℕ → Role} {D : Finset ℕ} {d d' v v' p q w perm : ℕ}
  {f : ℕ → ℕ → ℕ}

@[simp] theorem pageOf_zero : pageOf 0 = none := by simp [pageOf]

theorem pageOf_leafEntry (h : perm < 1024) : pageOf (leafEntry p perm) = some p := by
  simp [pageOf, pte2page_leafEntry h]

theorem mapsTo_iff_pageOf : MapsTo w p ↔ pageOf w = some p := by
  unfold MapsTo pageOf
  split <;> simp_all

theorem view_congr (h : pageOf (t.pte d v) = pageOf (s.pte d' v'))
    (hw : ∀ p, MapsTo (s.pte d' v') p → t.word p = s.word p) : view t d v = view s d' v' := by
  unfold view
  rw [h]
  cases hp : pageOf (s.pte d' v') with
  | none => rfl
  | some p => simp [hw p (mapsTo_iff_pageOf.mpr hp)]

theorem view_edit (e : Edit s R D f t R') (hd : d ∈ D) (hv : isVpn v)
    (h : pageOf (f d v) = pageOf (s.pte d' v')) : view t d v = view s d' v' := by
  have hp : pageOf (t.pte d v) = pageOf (s.pte d' v') := by rw [e.pte d hd v hv, h]
  refine view_congr hp fun p hm => e.data p (e.inv.mapped (mapped_of hd hv ?_))
  rw [mapsTo_iff_pageOf, hp]
  exact mapsTo_iff_pageOf.mp hm

end Views

/-- An operation that keeps the invariant, gives back only pages without references, and leaves
the contents `g` in the address spaces. -/
structure Acts (s : State) (R : ℕ → Role) (D : Finset ℕ) (g : ℕ → ℕ → Option (ℕ → ℕ)) (t : State)
    (R' : ℕ → Role) : Prop where
  cow : CowInv t R' D
  view : ∀ d ∈ D, ∀ v, isVpn v → view t d v = g d v
  other : ∀ p, R' p = .other ↔ R p = .other
  freed : ∃ l, t.freed = s.freed ++ l ∧ ∀ x ∈ l, x.2 = 0

section Acts

variable {s t u : State} {R R' R'' : ℕ → Role} {D : Finset ℕ} {d v : ℕ} {f : ℕ → ℕ → ℕ}
  {g g' : ℕ → ℕ → Option (ℕ → ℕ)}

theorem Acts.trans (h : Acts s R D g t R') (h' : Acts t R' D g' u R'') : Acts s R D g' u R'' where
  cow := h'.cow
  view := h'.view
  other p := (h'.other p).trans (h.other p)
  freed := by
    obtain ⟨l, hl, h⟩ := h.freed
    obtain ⟨l', hl', h'⟩ := h'.freed
    refine ⟨l ++ l', by rw [hl', hl, List.append_assoc], fun x hx => ?_⟩
    exact (List.mem_append.mp hx).elim (h x) (h' x)

theorem Acts.congr (h : Acts s R D g t R') (hg : ∀ d ∈ D, ∀ v, isVpn v → g d v = g' d v) :
    Acts s R D g' t R' :=
  ⟨h.cow, fun d hd v hv => (h.view d hd v hv).trans (hg d hd v hv), h.other, h.freed⟩

theorem Acts.refl (c : CowInv s R D) : Acts s R D (Cow.view s) s R :=
  ⟨c, fun _ _ _ _ => rfl, fun _ => Iff.rfl, [], by simp⟩

theorem CowInv.acts (c : CowInv s R D) (e : Edit s R D f t R') (h : Exclusive f D)
    (hg : ∀ d ∈ D, ∀ v, isVpn v →
      ∃ d' v', pageOf (f d v) = pageOf (s.pte d' v') ∧ g d v = Cow.view s d' v') :
    Acts s R D g t R' := by
  refine ⟨c.edit e h, fun d hd v hv => ?_, fun p => e.other_iff, e.freed.log⟩
  obtain ⟨d', v', hp, hv'⟩ := hg d hd v hv
  rw [hv']
  exact view_edit e hd hv hp

theorem CowInv.acts_grow (c : CowInv s R D) (g : Grow s R t R') : Acts s R D (Cow.view s) t R' :=
  c.acts (g.edit c.inv) c.excl fun d _ v _ => ⟨d, v, rfl, rfl⟩

end Acts

end UCore.Cow
