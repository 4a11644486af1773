import UCore.PageTable.Exit
import UCore.PageTable.FiniteMap

/-! # What the teardown of an address space gives back

`exit_range` decides from the entries that it visits for one area whether the middle table goes.
The tables are all given back only if the areas are laid out so that, in each gigabyte, the first
area that finds all its leaf tables in place also finds the last of them.
-/

namespace UCore.PageTable

open Library

/-- The leaf tables of gigabyte `g` that the areas visit. -/
def covered (g : ℕ) : List Vma → Finset ℕ
  | [] => ∅
  | vma :: l => slotsOf vma.vmStart vma.vmEnd g ∪ covered g l

/-- The area finds a leaf table in `B` behind every entry of gigabyte `g` that it visits, and it
visits at least one. -/
def Vma.clears (vma : Vma) (g : ℕ) (B : Finset ℕ) : Prop :=
  (slotsOf vma.vmStart vma.vmEnd g).Nonempty ∧ slotsOf vma.vmStart vma.vmEnd g ⊆ B

instance (vma : Vma) (g : ℕ) (B : Finset ℕ) : Decidable (vma.clears g B) :=
  inferInstanceAs (Decidable (_ ∧ _))

/-- The first area that finds all leaf tables it visits in place, of those in `B` and not visited
by the areas before it, is the last to visit any. -/
def Swept (g : ℕ) (B : Finset ℕ) (l : List Vma) : Prop :=
  ∃ pre vma post, l = pre ++ vma :: post ∧ vma.clears g (B \ covered g pre) ∧
    B ⊆ covered g (pre ++ [vma]) ∧
    ∀ pre' vma' post', pre = pre' ++ vma' :: post' → ¬ vma'.clears g (B \ covered g pre')

/-- `exit_range` for every area. -/
def Tables.exitAll (T : Tables) (l : List Vma) : Tables :=
  l.foldl (fun T vma => T.exit vma.vmStart vma.vmEnd) T

section Sweep

variable {g : ℕ} {B : Finset ℕ} {vma : Vma} {l : List Vma} {T : Tables}

theorem not_swept_nil : ¬ Swept g B [] := by
  rintro ⟨pre, vma, post, h, -⟩
  simp at h

theorem swept_cons_of_clears (h : vma.clears g B) :
    Swept g B (vma :: l) ↔ B ⊆ slotsOf vma.vmStart vma.vmEnd g := by
  constructor
  · rintro ⟨pre, vma', post, he, -, hB, hfirst⟩
    cases pre with
    | nil =>
      obtain ⟨rfl, -⟩ : vma = vma' ∧ l = post := by simpa using he
      simpa [covered] using hB
    | cons w pre =>
      obtain ⟨rfl, -⟩ : vma = w ∧ l = pre ++ vma' :: post := by simpa using he
      refine absurd ?_ (hfirst [] vma pre rfl)
      simpa [covered] using h
  · intro hB
    refine ⟨[], vma, l, rfl, by simpa [covered] using h, by simpa [covered] using hB, ?_⟩
    intro pre' vma' post' he
    simp at he

theorem swept_cons (h : ¬ vma.clears g B) :
    Swept g B (vma :: l) ↔ Swept g (B \ slotsOf vma.vmStart vma.vmEnd g) l := by
  have hsub : ∀ C : Finset ℕ, B \ (slotsOf vma.vmStart vma.vmEnd g ∪ C) =
      (B \ slotsOf vma.vmStart vma.vmEnd g) \ C := by
    intro C
    generalize slotsOf vma.vmStart vma.vmEnd g = S
    ext j
    simp only [Finset.mem_sdiff, Finset.mem_union, not_or, and_assoc]
  have hsd : ∀ C : Finset ℕ, B \ slotsOf vma.vmStart vma.vmEnd g ⊆ C ↔
      B ⊆ slotsOf vma.vmStart vma.vmEnd g ∪ C := by
    intro C
    simp only [Finset.subset_iff, Finset.mem_sdiff, Finset.mem_union]
    constructor
    · intro h j hj
      by_cases hs : j ∈ slotsOf vma.vmStart vma.vmEnd g
      · exact .inl hs
      · exact .inr (h ⟨hj, hs⟩)
    · rintro h j ⟨hj, hs⟩
      exact (h hj).resolve_left hs
  constructor
  · rintro ⟨pre, vma', post, he, hc, hB, hfirst⟩
    cases pre with
    | nil =>
      obtain ⟨rfl, -⟩ : vma = vma' ∧ l = post := by simpa using he
      exact absurd (by simpa [covered] using hc) h
    | cons w pre =>
      obtain ⟨rfl, rfl⟩ : vma = w ∧ l = pre ++ vma' :: post := by simpa using he
      refine ⟨pre, vma', post, rfl, ?_, ?_, fun pre' w post' hp => ?_⟩
      · rwa [covered, hsub] at hc
      · rw [List.cons_append, covered] at hB
        rwa [hsd]
      · have := hfirst (vma :: pre') w post' (by rw [hp]; rfl)
        rwa [covered, hsub] at this
  · rintro ⟨pre, vma', post, rfl, hc, hB, hfirst⟩
    refine ⟨vma :: pre, vma', post, rfl, ?_, ?_, fun pre' w post' hp => ?_⟩
    · rwa [covered, hsub]
    · rw [List.cons_append, covered]
      rwa [hsd] at hB
    · cases pre' with
      | nil =>
        obtain ⟨rfl, -⟩ : vma = w ∧ pre = post' := by simpa using hp
        simpa [covered] using h
      | cons w' pre' =>
        obtain ⟨rfl, rfl⟩ : vma = w' ∧ pre = pre' ++ w :: post' := by simpa using hp
        rw [covered, hsub]
        exact hfirst pre' w post' rfl

theorem mem_exit_mids : g ∈ (T.exit vma.vmStart vma.vmEnd).mids ↔
    g ∈ T.mids ∧ ¬ vma.clears g (T.slots g) := by
  simp [Tables.exit, Vma.clears]

theorem exit_slots : (T.exit vma.vmStart vma.vmEnd).slots g =
    if g ∈ T.mids then T.slots g \ slotsOf vma.vmStart vma.vmEnd g else T.slots g := rfl

theorem exitAll_gone (h : g ∉ T.mids) :
    g ∉ (T.exitAll l).mids ∧ (T.exitAll l).slots g = T.slots g := by
  induction l generalizing T with
  | nil => exact ⟨h, rfl⟩
  | cons vma l ih =>
    obtain ⟨h₁, h₂⟩ := ih (T := T.exit vma.vmStart vma.vmEnd) fun hg => h (mem_exit_mids.mp hg).1
    refine ⟨h₁, h₂.trans ?_⟩
    rw [exit_slots, if_neg h]

theorem exitAll_swept (h : g ∈ T.mids) :
    (g ∉ (T.exitAll l).mids ∧ (T.exitAll l).slots g = ∅) ↔ Swept g (T.slots g) l := by
  induction l generalizing T with
  | nil => simp [Tables.exitAll, h, not_swept_nil]
  | cons vma l ih =>
    change (g ∉ ((T.exit vma.vmStart vma.vmEnd).exitAll l).mids ∧
      ((T.exit vma.vmStart vma.vmEnd).exitAll l).slots g = ∅) ↔ _
    by_cases hc : vma.clears g (T.slots g)
    · have hg : g ∉ (T.exit vma.vmStart vma.vmEnd).mids := fun hg => (mem_exit_mids.mp hg).2 hc
      obtain ⟨h₁, h₂⟩ := exitAll_gone (l := l) hg
      rw [swept_cons_of_clears hc, h₂, exit_slots, if_pos h]
      simp [h₁, Finset.sdiff_eq_empty_iff_subset]
    · have hg : g ∈ (T.exit vma.vmStart vma.vmEnd).mids := mem_exit_mids.mpr ⟨h, hc⟩
      rw [ih hg, exit_slots, if_pos h, swept_cons hc]

end Sweep

/-- No entry of the user part of the directory leads to a page that was given back. -/
def NoDangling (d : ℕ) (x : State) : Prop :=
  ∀ i, userPart i → has (x.word d i) pteV = true → pte2page (x.word d i) ∉ x.free ∧
    ∀ j < 512, has (x.word (pte2page (x.word d i)) j) pteV = true →
      pte2page (x.word (pte2page (x.word d i)) j) ∉ x.free

/-- The teardown gives back the user pages, the tables and the directory, each once, and no table
that is still referenced. -/
structure Exact (s : State) (mm : Mm) (t : State) : Prop where
  freed : Freed (fun _ => True) s t fun p =>
    IsTable s {mm.pgdir} p ∨ ∃ v, isVpn v ∧ MapsTo (s.pte mm.pgdir v) p
  unreferenced : ∀ l, l <+: mm.mmapList → ∃ x, s.exitAreas mm l = some x ∧ NoDangling mm.pgdir x

section Teardown

variable {s x : State} {R R' : ℕ → Role} {D : Finset ℕ} {d p : ℕ} {T : Tables} {l : List Vma}
  {mm : Mm}

theorem Part.noDangling (P : Part s R d T x) (h : Wf s R) (hd : R d = .root) : NoDangling d x := by
  have hfree : ∀ p, R p ≠ .free → ¬ Gone R d T p → p ∉ x.free := by
    intro p hp hg hx
    rcases (P.free p).mp hx with hx | hx
    · exact hp ((h.free p).mpr hx)
    · exact hg hx
  intro i hi hv
  have hi' : i ∈ T.mids := by
    by_contra hn
    simp [(P.root i hi).2 hn] at hv
  have hw := (P.root i hi).1 hi'
  rw [hw] at hv ⊢
  have hm := h.rootEntry d i hd hi hv
  refine ⟨hfree _ (by simp [hm]) ?_, fun j hj hv' => ?_⟩
  · rintro (⟨i', hp, hn⟩ | ⟨i', j, hp, -⟩)
    · rw [hm] at hp
      simp only [Role.mid.injEq, true_and] at hp
      exact hn (hp ▸ hi')
    · simp [hm] at hp
  · have hj' : j ∈ T.slots i := by
      by_contra hn
      simp [(P.mid _ i hm hi' j hj).2 hn] at hv'
    rw [(P.mid _ i hm hi' j hj).1 hj'] at hv' ⊢
    have hl := h.midEntry _ d i j hm hj hv'
    refine hfree _ (by simp [hl]) ?_
    rintro (⟨i', hp, -⟩ | ⟨i', j', hp, hn⟩)
    · simp [hl] at hp
    · rw [hl] at hp
      simp only [Role.leaf.injEq, true_and] at hp
      exact hn (hp.1 ▸ hp.2 ▸ hj')

theorem exitAll_spec (h : Wf s R) (hd : R d = .root)
    (hz : ∀ l i j, R l = .leaf d i j → ∀ k < 512, s.word l k = 0) (P : Part s R d T x)
    (hl : ∀ vma ∈ l, vma.Ok) :
    ∃ x', l.foldlM (fun s vma => s.exitRange d vma.vmStart vma.vmEnd) x = some x' ∧
      Part s R d (T.exitAll l) x' := by
  induction l generalizing x T with
  | nil => exact ⟨x, rfl, P⟩
  | cons vma l ih =>
    have hv := hl vma (by simp)
    obtain ⟨y, hy, P'⟩ := exitRange_spec h hd hz P hv.start hv.stop hv.user
    obtain ⟨x', hx', P''⟩ := ih P' fun vma h => hl vma (by simp [h])
    exact ⟨x', by simp [hy, hx'], P''⟩

theorem Trim.tables_eq {t : State} {f : ℕ → ℕ → ℕ} (k : Inv s R D) (hd : d ∈ D)
    (e : Trim s R D f t R') : t.tables d = s.tables d := by
  have h₁ := (k.dirs d).mpr hd
  have h₂ := (e.inv.dirs d).mpr hd
  ext1
  · ext i
    rw [mem_mids e.inv.wf h₂, mem_mids k.wf h₁]
    simp only [e.role_iff (x := .mid d i) (by simp) (by simp)]
  · funext i
    ext j
    rw [mem_slots e.inv.wf h₂, mem_slots k.wf h₁]
    simp only [e.role_iff (x := .leaf d i j) (by simp) (by simp)]

theorem Inv.leaf_zero (k : Inv s R D) (hz : ∀ v, isVpn v → s.pte d v = 0) :
    ∀ l i j, R l = .leaf d i j → ∀ n < 512, s.word l n = 0 := by
  intro l i j hl n hn
  obtain ⟨hj, m, hm, -⟩ := k.wf.leaf l d i j hl
  obtain ⟨-, hi, -⟩ := k.wf.mid m d i hm
  obtain ⟨v, hv, rfl, rfl, rfl⟩ := exists_vpn hi hj hn
  rw [← k.wf.pte_leaf hl]
  exact hz v hv

theorem isTable_single (h : Wf s R) (hd : R d = .root) : IsTable s {d} p ↔ OfDir R d p := by
  constructor
  · rintro (hp | ⟨d', hd', i, hi, hv, rfl | ⟨j, hj, hv', rfl⟩⟩)
    · exact .inl (Finset.mem_singleton.mp hp)
    · obtain rfl := Finset.mem_singleton.mp hd'
      exact .inr (.inl ⟨i, h.rootEntry d' i hd hi hv⟩)
    · obtain rfl := Finset.mem_singleton.mp hd'
      exact .inr (.inr ⟨i, j, h.midEntry _ d' i j (h.rootEntry d' i hd hi hv) hj hv'⟩)
  · rintro (rfl | ⟨i, hp⟩ | ⟨i, j, hp⟩)
    · exact .inl (Finset.mem_singleton_self p)
    · obtain ⟨-, hi, hv, rfl⟩ := h.mid p d i hp
      exact .inr ⟨d, Finset.mem_singleton_self d, i, hi, hv, .inl rfl⟩
    · obtain ⟨hj, m, hm, hv', rfl⟩ := h.leaf p d i j hp
      obtain ⟨-, hi, hv, rfl⟩ := h.mid m d i hm
      exact .inr ⟨d, Finset.mem_singleton_self d, i, hi, hv, .inr ⟨j, hj, hv', rfl⟩⟩

theorem gone_all_iff (h : Wf s R) (hd : R d = .root)
    (hslots : ∀ i, T.slots i ⊆ (s.tables d).slots i) :
    (∀ p, OfDir R d p → p = d ∨ Gone R d T p) ↔
      ∀ g ∈ (s.tables d).mids, g ∉ T.mids ∧ T.slots g = ∅ := by
  constructor
  · intro hall g hg
    constructor
    · obtain ⟨m, hm⟩ := (mem_mids h hd).mp hg
      rcases hall m (.inr (.inl ⟨g, hm⟩)) with rfl | ⟨i, hp, hi⟩ | ⟨i, j, hp, -⟩
      · simp [hd] at hm
      · rw [hm] at hp
        simp only [Role.mid.injEq, true_and] at hp
        rwa [hp]
      · simp [hm] at hp
    · rw [Finset.eq_empty_iff_forall_notMem]
      intro j hj
      obtain ⟨l, hl⟩ := (mem_slots h hd).mp (hslots g hj)
      rcases hall l (.inr (.inr ⟨g, j, hl⟩)) with rfl | ⟨i, hp, -⟩ | ⟨i, j', hp, hn⟩
      · simp [hd] at hl
      · simp [hl] at hp
      · rw [hl] at hp
        simp only [Role.leaf.injEq, true_and] at hp
        exact hn (hp.1 ▸ hp.2 ▸ hj)
  · rintro hall p (hp | ⟨i, hp⟩ | ⟨i, j, hp⟩)
    · exact .inl hp
    · exact .inr (.inl ⟨i, hp, (hall i ((mem_mids h hd).mpr ⟨p, hp⟩)).1⟩)
    · obtain ⟨-, m, hm, -⟩ := h.leaf p d i j hp
      refine .inr (.inr ⟨i, j, hp, ?_⟩)
      simp [(hall i ((mem_mids h hd).mpr ⟨m, hm⟩)).2]

variable (k : Inv s R D) (hd : mm.pgdir ∈ D) (hok : ∀ vma ∈ mm.mmapList, vma.Ok)
  (hin : ∀ v, isVpn v → s.pte mm.pgdir v ≠ 0 → mm.mmapList.any (·.hasPage v) = true)
include k hd hok hin

theorem exitAreas_spec : ∃ s' R', Trim s R D (clearAreas s.pte mm.pgdir mm.mmapList) s' R' ∧
    (∀ v, isVpn v → s'.pte mm.pgdir v = 0) ∧
    ∀ l, (∀ vma ∈ l, vma.Ok) → ∃ t, s.exitAreas mm l = some t ∧
      Part s' R' mm.pgdir ((s.tables mm.pgdir).exitAll l) t := by
  obtain ⟨s', R', hs', e⟩ := unmapAll_spec k hd hok
  have hz : ∀ v, isVpn v → s'.pte mm.pgdir v = 0 := by
    intro v hv
    rw [e.pte _ hd v hv, clearAreas]
    split
    · rfl
    · rename_i hn
      by_contra h₀
      exact hn ⟨rfl, hin v hv h₀⟩
  refine ⟨s', R', e, hz, fun l hl => ?_⟩
  have hroot := (e.inv.dirs _).mpr hd
  obtain ⟨t, ht, P⟩ := exitAll_spec e.inv.wf hroot (e.inv.leaf_zero hz)
    (Part.refl e.inv.wf hroot) hl
  rw [e.tables_eq k hd] at P
  exact ⟨t, by simp [State.exitAreas, hs', ht], P⟩

omit hok hin in
theorem unmapped_iff {s' : State} (e : Trim s R D (clearAreas s.pte mm.pgdir mm.mmapList) s' R')
    (hz : ∀ v, isVpn v → s'.pte mm.pgdir v = 0)
    (hone : ∀ v p, isVpn v → MapsTo (s.pte mm.pgdir v) p → s.ref p = 1) :
    (R p = .user ∧ R' p ≠ .user) ↔ ∃ v, isVpn v ∧ MapsTo (s.pte mm.pgdir v) p := by
  constructor
  · rintro ⟨hp, hn⟩
    have hx : ¬ ((s.maps D p).Nonempty → (s'.maps D p).Nonempty) :=
      fun h => hn ((e.user p).mpr ⟨hp, h⟩)
    rw [Classical.not_imp] at hx
    obtain ⟨⟨⟨d, v⟩, hm⟩, hx⟩ := hx
    obtain ⟨⟨hd', hv⟩, hm⟩ := mem_maps.mp hm
    rcases eq_or_ne d mm.pgdir with rfl | hne
    · exact ⟨v, hv, hm⟩
    · refine absurd (mapped_of hd' hv ?_) hx
      rwa [e.pte d hd' v hv, clearAreas, if_neg fun h => hne h.1]
  · rintro ⟨v, hv, hm⟩
    have hp := k.mapped (mapped_of hd hv hm)
    refine ⟨hp, fun hp' => ?_⟩
    obtain ⟨⟨d, v'⟩, hx⟩ := ((e.user p).mp hp').2 (mapped_of hd hv hm)
    obtain ⟨⟨hd', hv'⟩, hm'⟩ := mem_maps.mp hx
    have hne : d ≠ mm.pgdir := by
      rintro rfl
      rw [hz v' hv'] at hm'
      simp at hm'
    rw [e.pte d hd' v' hv', clearAreas, if_neg fun h => hne h.1] at hm'
    have hr := hone v p hv hm
    rw [k.refs p hp] at hr
    have := Finset.card_le_one.mp (le_of_eq (by exact_mod_cast hr)) (d, v')
      (mem_maps.mpr ⟨⟨hd', hv'⟩, hm'⟩) (mm.pgdir, v) (mem_maps.mpr ⟨⟨hd, hv⟩, hm⟩)
    exact hne (congrArg Prod.fst this)

/-- `exit_mmap` and `put_pgdir` give everything back exactly when the areas sweep every gigabyte
that has a middle table. -/
theorem teardown_exact_iff
    (hone : ∀ v p, isVpn v → MapsTo (s.pte mm.pgdir v) p → s.ref p = 1) :
    ∃ t, s.exitMmap mm = some t ∧ (Exact s mm (t.putPgdir mm) ↔
      ∀ g ∈ (s.tables mm.pgdir).mids, Swept g ((s.tables mm.pgdir).slots g) mm.mmapList) := by
  obtain ⟨s', R', e, hz, hall⟩ := exitAreas_spec k hd hok hin
  obtain ⟨t, ht, P⟩ := hall mm.mmapList hok
  have hroot := (k.dirs _).mpr hd
  have hroot' := (e.inv.dirs _).mpr hd
  have hmid : ∀ i p, R' p = .mid mm.pgdir i ↔ R p = .mid mm.pgdir i := fun i p =>
    e.role_iff (by simp) (by simp)
  have hleaf : ∀ i j p, R' p = .leaf mm.pgdir i j ↔ R p = .leaf mm.pgdir i j := fun i j p =>
    e.role_iff (by simp) (by simp)
  have hrange : ∀ p, Gone R' mm.pgdir ((s.tables mm.pgdir).exitAll mm.mmapList) p →
      R' p ≠ .free ∧ p ≠ mm.pgdir := by
    rintro p (⟨i, hp, -⟩ | ⟨i, j, hp, -⟩)
    · refine ⟨by simp [hp], ?_⟩
      rintro rfl
      simp [hp] at hroot'
    · refine ⟨by simp [hp], ?_⟩
      rintro rfl
      simp [hp] at hroot'
  have hgave : ∀ p, R p = .user ∧ R' p ≠ .user → R' p = .free := by
    rintro p ⟨hp, hn⟩
    rcases e.keeps p with h | h
    · exact absurd (h.trans hp) hn
    · exact h.2
  -- the pages given back: user pages, tables, the directory
  have hfreed : Freed (fun _ => True) s (t.putPgdir mm) fun p =>
      ((∃ v, isVpn v ∧ MapsTo (s.pte mm.pgdir v) p) ∨
        Gone R' mm.pgdir ((s.tables mm.pgdir).exitAll mm.mmapList) p) ∨ p = mm.pgdir := by
    have h₁ := e.freed.mono (Q := fun _ => True) fun _ _ => trivial
    refine Freed.trans (h₁.trans P.freed (fun p hp hg => (hrange p hg).1 (hgave p hp)) fun p => ?_)
      (.single (S := fun p => p = mm.pgdir) rfl trivial fun p => Iff.rfl) ?_ fun p => Iff.rfl
    · rw [unmapped_iff k hd e hz hone]
    · rintro p (⟨v, hv, hm⟩ | hg) rfl
      · simp [k.mapped (mapped_of hd hv hm)] at hroot
      · exact (hrange _ hg).2 rfl
  have hdang : ∀ l, l <+: mm.mmapList → ∃ x, s.exitAreas mm l = some x ∧
      NoDangling mm.pgdir x := by
    intro l hl
    obtain ⟨x, hx, P⟩ := hall l fun vma h => hok vma (hl.subset h)
    exact ⟨x, hx, P.noDangling e.inv.wf hroot'⟩
  have hof : ∀ p, OfDir R' mm.pgdir p ↔ OfDir R mm.pgdir p := by
    intro p
    simp only [OfDir, hmid, hleaf]
  have htab := e.tables_eq k hd
  have hgone := gone_all_iff e.inv.wf hroot' P.slots
  rw [htab] at hgone
  have hswept : (∀ g ∈ (s.tables mm.pgdir).mids,
      Swept g ((s.tables mm.pgdir).slots g) mm.mmapList) ↔
      ∀ p, OfDir R' mm.pgdir p → p = mm.pgdir ∨
        Gone R' mm.pgdir ((s.tables mm.pgdir).exitAll mm.mmapList) p := by
    rw [hgone]
    exact forall₂_congr fun g hg => (exitAll_swept hg).symm
  refine ⟨t, ht, ?_⟩
  rw [hswept]
  refine ⟨fun hx p hp => ?_, fun hx => ⟨?_, hdang⟩⟩
  · have h₁ := (hx.freed.unique hfreed p).mp
      (.inl ((isTable_single k.wf hroot).mpr ((hof p).mp hp)))
    rcases h₁ with (⟨v, hv, hm⟩ | hg) | hp'
    · have hu := k.mapped (mapped_of hd hv hm)
      rcases (hof p).mp hp with rfl | ⟨i, h⟩ | ⟨i, j, h⟩
      · exact .inl rfl
      · simp [hu] at h
      · simp [hu] at h
    · exact .inr hg
    · exact .inl hp'
  · refine hfreed.congr fun p => ?_
    rw [isTable_single k.wf hroot, ← hof]
    constructor
    · rintro ((hm | hg) | hp)
      · exact .inr hm
      · exact .inl hg.ofDir
      · exact .inl (.inl hp)
    · rintro (hp | hm)
      · rcases hx p hp with hp | hg
        · exact .inr hp
        · exact .inl (.inr hg)
      · exact .inl (.inl hm)

end Teardown

/-- The last page before a 2 MB boundary. -/
def lastPage : ℕ := 0x3ff000

/-- A directory with one user page, at `lastPage`: page 1 is the directory, 2 the user page, 3 the
middle table and 4 the leaf table. -/
def onePage : State :=
  ((fourPages.setupPgdir bootPageTable).2.allocPage.2.pageInsert 1 2 lastPage pteU).2

def onePageCalls : List (Op × Result) :=
  [(.setupPgdir, .page (some 1)), (.allocPage, .page (some 2)),
    (.pageInsert 1 2 lastPage pteU, .ret 0)]

theorem onePage_agrees : ∃ R D,
    Agrees onePage R D (onePageCalls.foldl (fun a x => a.apply x.1 x.2) Spaces.empty) := by
  have hs : Start fourPages := fun _ _ => rfl
  have hok : (onePageCalls.take 2).foldl (fun a x => a.apply x.1 x.2) Spaces.empty
      |>.admits (.pageInsert 1 2 lastPage pteU) :=
    ⟨.inl rfl, .inl rfl, by decide, by decide, by decide⟩
  have hrun : Runs Step (fourPages, .empty) onePageCalls
      (onePage, onePageCalls.foldl (fun a x => a.apply x.1 x.2) Spaces.empty) :=
    .cons (t := (_, _)) ⟨trivial, rfl, rfl⟩ (.cons (t := (_, _)) ⟨trivial, rfl, rfl⟩
      (.cons (t := (_, _)) ⟨hok, rfl, rfl⟩ (.nil _)))
  exact hs.agrees.run hrun

/-- An `mm_struct` for this directory with one area from `lastPage` to `end'`. -/
def areaTo (end' : ℕ) : Mm := ⟨[⟨lastPage, end', vmRead⟩], none, 1⟩

theorem onePage_space (end' : ℕ) (he : lastPage + pgsize ≤ end') : ∃ R D, Inv onePage R D ∧ 1 ∈ D ∧
    (∀ v, isVpn v → onePage.pte 1 v ≠ 0 → (areaTo end').mmapList.any (·.hasPage v) = true) ∧
    ∀ v p, isVpn v → MapsTo (onePage.pte 1 v) p → onePage.ref p = 1 := by
  obtain ⟨R, D, h⟩ := onePage_agrees
  have hd : 1 ∈ D := (h.dirs 1).mp (.inl rfl)
  have hpte : ∀ v, isVpn v → onePage.pte 1 v =
      if v = lastPage / pgsize then leafEntry 2 pteU else 0 := by
    intro v hv
    rw [h.pte 1 hd v hv]
    by_cases hx : v = lastPage / pgsize
    · simp [onePageCalls, Spaces.apply, Spaces.remap, setEntry, hx, entry]
    · simp [onePageCalls, Spaces.apply, Spaces.remap, setEntry, hx, entry, Spaces.empty]
  refine ⟨R, D, h.inv, hd, fun v hv h₀ => ?_, fun v p hv hm => ?_⟩
  · rw [hpte v hv] at h₀
    have hx : v = lastPage / pgsize := by
      by_contra hx
      simp [hx] at h₀
    have hlt : lastPage / pgsize < end' / pgsize := by
      unfold lastPage pgsize at *
      omega
    simp [areaTo, Vma.hasPage, hx, hlt]
  · rw [hpte v hv] at hm
    split at hm
    · obtain rfl := (mapsTo_leafEntry (by decide)).mp hm
      rfl
    · simp at hm

theorem teardown_exact_iff_onePage : ∃ t, onePage.exitMmap (areaTo (lastPage + pgsize)) = some t ∧
    Exact onePage (areaTo (lastPage + pgsize)) (t.putPgdir (areaTo (lastPage + pgsize))) := by
  obtain ⟨R, D, k, hd, hin, hone⟩ := onePage_space (lastPage + pgsize) le_rfl
  have hok : ∀ vma ∈ (areaTo (lastPage + pgsize)).mmapList, vma.Ok := by decide
  obtain ⟨t, ht, hiff⟩ := teardown_exact_iff k hd hok hin hone
  refine ⟨t, ht, hiff.mpr ?_⟩
  have hmids : (onePage.tables 1).mids = {0} := by decide +kernel
  have hslots : (onePage.tables 1).slots 0 = {1} := by decide +kernel
  intro g hg
  obtain rfl : g = 0 := by
    have : g ∈ (onePage.tables 1).mids := hg
    simpa [hmids] using this
  have : Swept 0 {1} (areaTo (lastPage + pgsize)).mmapList :=
    ⟨[], _, [], rfl, by decide +kernel, by decide +kernel, by simp⟩
  rw [← hslots] at this
  exact this

/-- With an area of one page more, the entry behind it has no leaf table, and the middle table is
never given back. -/
theorem teardown_not_exact : ∃ s R D mm, Inv s R D ∧ mm.pgdir ∈ D ∧ mm.Ok ∧
    mm.mmapList.Pairwise (fun a b => a.vmEnd ≤ b.vmStart) ∧
    (∀ v, isVpn v → s.pte mm.pgdir v ≠ 0 → mm.mmapList.any (·.hasPage v) = true) ∧
    (∀ v p, isVpn v → MapsTo (s.pte mm.pgdir v) p → s.ref p = 1) ∧
    ∃ t, s.exitMmap mm = some t ∧ ¬ Exact s mm (t.putPgdir mm) := by
  obtain ⟨R, D, k, hd, hin, hone⟩ := onePage_space (lastPage + 2 * pgsize) (by decide)
  refine ⟨onePage, R, D, areaTo (lastPage + 2 * pgsize), k, hd, by decide, by decide, hin, hone, ?_⟩
  have he : (onePage.exitMmap (areaTo (lastPage + 2 * pgsize))).map (fun t =>
      (t.putPgdir (areaTo (lastPage + 2 * pgsize))).freed.map Prod.fst) = some [2, 4, 1] := by
    decide +kernel
  obtain ⟨t, ht, hfreed⟩ := Option.map_eq_some_iff.mp he
  refine ⟨t, ht, fun hx => ?_⟩
  obtain ⟨l, hl, -, -, hm⟩ := hx.freed
  have hl' : (t.putPgdir (areaTo (lastPage + 2 * pgsize))).freed = l := hl.trans (by rfl)
  have htab : IsTable onePage {1} 3 :=
    .inr ⟨1, by simp, 0, by decide, by decide +kernel, .inl (by decide +kernel)⟩
  have := (hm 3).mpr (.inl htab)
  rw [← hl', hfreed] at this
  simp at this

end UCore.PageTable
