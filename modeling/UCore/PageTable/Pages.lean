import UCore.PageTable.Ops

/-! # Fresh pages

The page allocator hands out a free page as a user page or as a directory, and user pages are
written. None of this changes a translation that exists.
-/

namespace UCore.PageTable

section Congr

variable {s t : State} {R : ℕ → Role} {D : Finset ℕ} {d v : ℕ}

def Role.isTable : Role → Prop
  | .root | .mid _ _ | .leaf _ _ _ => True
  | _ => False

theorem Wf.congr (h : Wf s R) (hf : t.free = s.free) (hr : ∀ p ∈ s.free, t.ref p = 0)
    (hw : ∀ p, (R p).isTable → t.word p = s.word p) : Wf t R := by
  refine ⟨by rw [hf]; exact h.free, by rw [hf]; exact hr, ?_, ?_, ?_, ?_, ?_⟩
  · intro d i hd
    rw [hw d (by simp [hd, Role.isTable])]
    exact h.rootEntry d i hd
  · intro m d i hm
    rw [hw d (by simp [(h.mid m d i hm).1, Role.isTable])]
    exact h.mid m d i hm
  · intro m d i j hm
    rw [hw m (by simp [hm, Role.isTable])]
    exact h.midEntry m d i j hm
  · intro l d i j hl
    obtain ⟨hj, m, hm, hv⟩ := h.leaf l d i j hl
    rw [← hw m (by simp [hm, Role.isTable])] at hv
    exact ⟨hj, m, hm, hv⟩
  · intro l d i j k hl
    rw [hw l (by simp [hl, Role.isTable])]
    exact h.leafEntry l d i j k hl

theorem Wf.pte_congr (h : Wf s R) (ht : Wf t R) (hw : ∀ p, (R p).isTable → t.word p = s.word p)
    (hd : R d = .root) (hv : isVpn v) : t.pte d v = s.pte d v := by
  rcases h.pte_cases hd hv with ⟨l, hl, he⟩ | ⟨hn, he⟩
  · rw [he, ht.pte_leaf hl, hw l (by simp [hl, Role.isTable])]
  · rw [he, ht.pte_none hd hv hn]

theorem Inv.congr (k : Inv s R D) (hf : t.free = s.free) (hr : t.ref = s.ref)
    (hw : ∀ p, (R p).isTable → t.word p = s.word p) :
    Inv t R D ∧ ∀ d ∈ D, ∀ v, isVpn v → t.pte d v = s.pte d v := by
  have ht : Wf t R := k.wf.congr hf (by rw [hr]; exact k.wf.freeRef) hw
  have hp : ∀ d ∈ D, ∀ v, isVpn v → t.pte d v = s.pte d v :=
    fun d hd v hv => k.wf.pte_congr ht hw ((k.dirs d).mpr hd) hv
  refine ⟨⟨ht, k.dirs, fun p hu => ?_⟩, hp⟩
  rw [hr, k.refs p hu, maps_congr hp]

end Congr

/-- A page of the allocator in use, with the contents `f`. -/
def State.take (s : State) (q : ℕ) (f : ℕ → ℕ) (l : List (Option ℕ)) : State :=
  { s with free := s.free.erase q, answers := l, word := Function.update s.word q f }

section Take

variable {s : State} {R : ℕ → Role} {D : Finset ℕ} {d p q v : ℕ} {f : ℕ → ℕ}
  {l : List (Option ℕ)} {x : Role}

theorem take_self : s.take q (s.word q) l = { s with free := s.free.erase q, answers := l } := by
  simp [State.take]

theorem take_word (h : p ≠ q) : (s.take q f l).word p = s.word p := by
  simp [State.take, h]

variable (hq : R q = .free)
include hq

theorem Wf.take (h : Wf s R)
    (hx : x = .user ∨ x = .root ∧ ∀ i, userPart i → has (f i) pteV = false) :
    Wf (s.take q f l) (Function.update R q x) := by
  have hxf : x ≠ .free := by rcases hx with rfl | ⟨rfl, -⟩ <;> simp
  have hR : ∀ p, p ≠ q → Function.update R q x p = R p := fun p hp => by simp [hp]
  have hold : ∀ p, R p ≠ .free → p ≠ q := fun p hp hpq => hp (hpq ▸ hq)
  have hw : ∀ p, R p ≠ .free → (s.take q f l).word p = s.word p :=
    fun p hp => take_word (hold p hp)
  have hne : ∀ p y, Function.update R q x p = y → y ≠ x → R p = y ∧ p ≠ q := by
    intro p y hp hy
    rcases eq_or_ne p q with rfl | hpq
    · simp [hy.symm] at hp
    · exact ⟨(hR p hpq).symm.trans hp, hpq⟩
  have hmid : ∀ d i, Role.mid d i ≠ x := by rcases hx with rfl | ⟨rfl, -⟩ <;> simp
  have hleaf : ∀ d i j, Role.leaf d i j ≠ x := by rcases hx with rfl | ⟨rfl, -⟩ <;> simp
  refine ⟨?_, ?_, ?_, ?_, ?_, ?_, ?_⟩
  · intro p
    change _ ↔ p ∈ s.free.erase q
    rw [Finset.mem_erase, ← h.free p]
    rcases eq_or_ne p q with rfl | hp
    · simp [hxf]
    · simp [hp]
  · intro p hp
    exact h.freeRef p (Finset.mem_of_mem_erase hp)
  · intro d i hd hi hv
    rcases eq_or_ne d q with rfl | hdq
    · have hroot : x = .root := by simpa using hd
      have hf : has (f i) pteV = true := by simpa [State.take] using hv
      rcases hx with hx | ⟨-, hx⟩
      · simp [hroot] at hx
      · simp [hx i hi] at hf
    · rw [hR d hdq] at hd
      rw [take_word hdq] at hv ⊢
      have hr := h.rootEntry d i hd hi hv
      rw [hR _ (hold _ (by simp [hr]))]
      exact hr
  · intro m d i hm
    obtain ⟨hm, -⟩ := hne m _ hm (hmid d i)
    obtain ⟨hd, h'⟩ := h.mid m d i hm
    rw [hw d (by simp [hd]), hR d (hold d (by simp [hd]))]
    exact ⟨hd, h'⟩
  · intro m d i j hm hj hv
    obtain ⟨hm, hmq⟩ := hne m _ hm (hmid d i)
    rw [take_word hmq] at hv ⊢
    have hr := h.midEntry m d i j hm hj hv
    rw [hR _ (hold _ (by simp [hr]))]
    exact hr
  · intro l' d i j hl
    obtain ⟨hl, -⟩ := hne l' _ hl (hleaf d i j)
    obtain ⟨hj, m, hm, h'⟩ := h.leaf l' d i j hl
    refine ⟨hj, m, (hR m (hold m (by simp [hm]))).trans hm, ?_⟩
    rw [hw m (by simp [hm])]
    exact h'
  · intro l' d i j k hl hk
    obtain ⟨hl, hlq⟩ := hne l' _ hl (hleaf d i j)
    rw [take_word hlq]
    rcases h.leafEntry l' d i j k hl hk with h₀ | ⟨h₁, h₂⟩
    · exact .inl h₀
    · exact .inr ⟨h₁, (hR _ (hold _ (by simp [h₂]))).trans h₂⟩

theorem take_pte (h : Wf s R)
    (hx : x = .user ∨ x = .root ∧ ∀ i, userPart i → has (f i) pteV = false)
    (hd : R d = .root) (hv : isVpn v) : (s.take q f l).pte d v = s.pte d v := by
  have ht : Wf (s.take q f l) (Function.update R q x) := h.take hq hx
  have hold : ∀ p, R p ≠ .free → p ≠ q := fun p hp hpq => hp (hpq ▸ hq)
  have hd' : Function.update R q x d = .root := by
    rw [Function.update_of_ne (hold d (by simp [hd]))]
    exact hd
  rcases h.pte_cases hd hv with ⟨l', hl, he⟩ | ⟨hn, he⟩
  · have hlq := hold l' (by simp [hl])
    have hl' : Function.update R q x l' = .leaf d (idx1 v) (idx0 v) := by
      rw [Function.update_of_ne hlq]
      exact hl
    rw [he, ht.pte_leaf hl', take_word hlq]
  · rw [he, ht.pte_none hd' hv fun l' hl => ?_]
    rcases eq_or_ne l' q with rfl | hlq
    · rw [Function.update_self] at hl
      rcases hx with rfl | ⟨rfl, -⟩ <;> simp at hl
    · rw [Function.update_of_ne hlq] at hl
      exact hn l' hl

theorem Inv.takeUser (k : Inv s R D) : Inv (s.take q f l) (Function.update R q .user) D := by
  have hpte : ∀ d ∈ D, ∀ v, isVpn v → (s.take q f l).pte d v = s.pte d v :=
    fun d hd v hv => take_pte hq k.wf (.inl rfl) ((k.dirs d).mpr hd) hv
  refine ⟨k.wf.take hq (.inl rfl), fun p => ?_, fun p hp => ?_⟩
  · rw [← k.dirs p]
    rcases eq_or_ne p q with rfl | hpq
    · simp [hq]
    · simp [hpq]
  · rw [maps_congr hpte]
    change s.ref p = _
    rcases eq_or_ne p q with rfl | hpq
    · rw [k.wf.freeRef p ((k.wf.free p).mp hq)]
      have hn : ¬ (s.maps D p).Nonempty := fun h => by simp [k.mapped h] at hq
      rw [Finset.not_nonempty_iff_eq_empty] at hn
      simp [hn]
    · exact k.refs p (by simpa [hpq] using hp)

variable (hf : ∀ i, userPart i → has (f i) pteV = false)
include hf

omit hq in
theorem take_pte_new (hv : isVpn v) : (s.take q f l).pte q v = 0 := by
  have : has ((s.take q f l).word q (idx1 v)) pteV = false := by
    simpa [State.take] using hf _ hv
  simp [State.pte, this]

theorem Inv.takeRoot (k : Inv s R D) :
    Inv (s.take q f l) (Function.update R q .root) (insert q D) := by
  have hpte : ∀ d ∈ D, ∀ v, isVpn v → (s.take q f l).pte d v = s.pte d v :=
    fun d hd v hv => take_pte hq k.wf (.inr ⟨rfl, hf⟩) ((k.dirs d).mpr hd) hv
  refine ⟨k.wf.take hq (.inr ⟨rfl, hf⟩), fun p => ?_, fun p hp => ?_⟩
  · rw [Finset.mem_insert, ← k.dirs p]
    rcases eq_or_ne p q with rfl | hpq
    · simp
    · simp [hpq]
  · have hpq : p ≠ q := by
      rintro rfl
      simp at hp
    have hmaps : (s.take q f l).maps (insert q D) p = s.maps D p := by
      ext ⟨d, v⟩
      rw [mem_maps, mem_maps, Finset.mem_insert]
      constructor
      · rintro ⟨⟨rfl | hd, hv⟩, hm⟩
        · rw [take_pte_new hf hv] at hm
          simp at hm
        · rw [hpte d hd v hv] at hm
          exact ⟨⟨hd, hv⟩, hm⟩
      · rintro ⟨⟨hd, hv⟩, hm⟩
        rw [hpte d hd v hv]
        exact ⟨⟨.inr hd, hv⟩, hm⟩
    rw [hmaps]
    exact k.refs p (by simpa [hpq] using hp)

end Take

/-- The directories and the tables that they reach. -/
def IsTable (s : State) (D : Finset ℕ) (p : ℕ) : Prop :=
  p ∈ D ∨ ∃ d ∈ D, ∃ i, userPart i ∧ has (s.word d i) pteV = true ∧
    (p = pte2page (s.word d i) ∨ ∃ j < 512, has (s.word (pte2page (s.word d i)) j) pteV = true ∧
      p = pte2page (s.word (pte2page (s.word d i)) j))

theorem isTable_iff {s : State} {R : ℕ → Role} {D : Finset ℕ} {p : ℕ} (k : Inv s R D) :
    IsTable s D p ↔ (R p).isTable := by
  constructor
  · rintro (hp | ⟨d, hd, i, hi, hv, rfl | ⟨j, hj, hv', rfl⟩⟩)
    · simp [(k.dirs p).mpr hp, Role.isTable]
    · simp [k.wf.rootEntry d i ((k.dirs d).mpr hd) hi hv, Role.isTable]
    · have hm := k.wf.rootEntry d i ((k.dirs d).mpr hd) hi hv
      simp [k.wf.midEntry _ d i j hm hj hv', Role.isTable]
  · intro hp
    cases hR : R p with
    | root => exact .inl ((k.dirs p).mp hR)
    | mid d i =>
      obtain ⟨hd, hi, hv, he⟩ := k.wf.mid p d i hR
      exact .inr ⟨d, (k.dirs d).mp hd, i, hi, hv, .inl he.symm⟩
    | leaf d i j =>
      obtain ⟨hj, m, hm, hv', he'⟩ := k.wf.leaf p d i j hR
      obtain ⟨hd, hi, hv, rfl⟩ := k.wf.mid m d i hm
      exact .inr ⟨d, (k.dirs d).mp hd, i, hi, hv, .inr ⟨j, hj, hv', he'.symm⟩⟩
    | free => simp [hR, Role.isTable] at hp
    | user => simp [hR, Role.isTable] at hp
    | other => simp [hR, Role.isTable] at hp

/-- No directory and no user page yet; the free pages have no references. -/
def Start (s : State) : Prop := ∀ p ∈ s.free, s.ref p = 0

section Start

variable {s : State} {p : ℕ} {x : Role}

def startRole (s : State) (p : ℕ) : Role := if p ∈ s.free then .free else .other

theorem startRole_cases (h : startRole s p = x) : x = .free ∨ x = .other := by
  unfold startRole at h
  split at h
  · exact .inl h.symm
  · exact .inr h.symm

theorem Start.inv (h : Start s) : Inv s (startRole s) ∅ := by
  refine ⟨⟨?_, h, ?_, ?_, ?_, ?_, ?_⟩, ?_, ?_⟩
  · intro p
    simp [startRole]
  · intro d i hd
    rcases startRole_cases hd with h | h <;> simp at h
  · intro m d i hm
    rcases startRole_cases hm with h | h <;> simp at h
  · intro m d i j hm
    rcases startRole_cases hm with h | h <;> simp at h
  · intro l d i j hl
    rcases startRole_cases hl with h | h <;> simp at h
  · intro l d i j k hl
    rcases startRole_cases hl with h | h <;> simp at h
  · intro p
    constructor
    · intro hp
      rcases startRole_cases hp with h | h <;> simp at h
    · simp
  · intro p hp
    rcases startRole_cases hp with h | h <;> simp at h

end Start

end UCore.PageTable
