import UCore.Cow.Invariant

/-! # The operations keep the copy-on-write invariant

Each operation of the fork and fault code is described by its effect on the contents of the
address spaces: a fault leaves all contents as they are, apart from a page that it adds, and a
fork shows the parent's contents to the child.
-/

namespace UCore.Cow

open Library PageTable

section Fresh

variable {s t : State} {R R' : ℕ → Role} {D : Finset ℕ} {d v q la perm : ℕ} {h : ℕ → ℕ}
  {l : List (Option ℕ)}

/-- The contents `g` with the page at one page number replaced. -/
def setView (g : ℕ → ℕ → Option (ℕ → ℕ)) (d v : ℕ) (h : ℕ → ℕ) : ℕ → ℕ → Option (ℕ → ℕ) :=
  setEntry g d v (some h)

theorem CowInv.not_mapped (c : CowInv s R D) (hq : R q = .free) : s.maps D q = ∅ := by
  rw [← Finset.not_nonempty_iff_eq_empty]
  intro h
  simp [c.inv.mapped h] at hq

/-- A page that was taken for an insertion that failed is given back. -/
theorem CowInv.giveBack (c : CowInv s R D) (hq : R q = .free)
    (g : Grow (s.take q h l) (Function.update R q .user) t R') :
    Acts s R D (view s) (t.freePage q) (Function.update R' q .free) := by
  have k₁ : Inv (s.take q h l) (Function.update R q .user) D := c.inv.takeUser hq
  have k₂ := k₁.grow g
  have hpte : ∀ d ∈ D, ∀ v, isVpn v → t.pte d v = s.pte d v := fun d hd v hv =>
    (g.pte_eq k₁ d hd v hv).trans (take_pte hq c.inv.wf (.inl rfl) ((c.inv.dirs d).mpr hd) hv)
  have hmaps : ∀ p, t.maps D p = s.maps D p := fun p => maps_congr hpte
  have hqt : R' q = .user := g.user_iff.mpr (by simp)
  have hold : ∀ p, Function.update R' q .free p = .user → R p = .user ∧ p ≠ q := by
    intro p hp
    have hpq : p ≠ q := by
      rintro rfl
      simp at hp
    rw [Function.update_of_ne hpq] at hp
    have := g.user_iff.mp hp
    rw [Function.update_of_ne hpq] at this
    exact ⟨this, hpq⟩
  have k₃ := k₂.freePage hqt (by rw [hmaps, c.not_mapped hq])
  refine ⟨⟨k₃, fun p hp => ?_, c.excl.congr hpte⟩, fun d hd v hv => ?_, fun p => ?_,
    [(q, t.ref q)], ?_, ?_⟩
  · change (t.maps D p).Nonempty
    rw [hmaps]
    exact c.full p (hold p hp).1
  · refine view_congr (by rw [show (t.freePage q).pte d v = t.pte d v from rfl, hpte d hd v hv])
      fun p hm => ?_
    have hu : R p = .user := c.inv.mapped (mapped_of hd hv hm)
    have hpq : p ≠ q := by
      rintro rfl
      simp [hq] at hu
    change t.word p = s.word p
    rw [g.data p (by simpa [hpq] using hu), take_word hpq]
  · rcases eq_or_ne p q with rfl | hpq
    · simp [hq]
    · rw [Function.update_of_ne hpq, (g.edit k₁).other_iff, Function.update_of_ne hpq]
  · change t.freed ++ _ = _
    rw [g.freed]
    rfl
  · have hr := k₂.refs q hqt
    rw [hmaps, c.not_mapped hq] at hr
    simpa using hr

/-- A fresh page is entered into an address space. -/
theorem CowInv.enter (c : CowInv s R D) (hq : R q = .free) (hd : d ∈ D) (hv : isVpn v)
    (hperm : perm < 1024) (hcow : has perm pteCow = true → has perm pteW = false)
    (e : Edit (s.take q h l) (Function.update R q .user) D
      (setEntry (s.take q h l).pte d v (leafEntry q perm)) t R') :
    t.ref q = 1 ∧ t.pte d v = leafEntry q perm ∧ Acts s R D (setView (view s) d v h) t R' := by
  have hpte : ∀ d ∈ D, ∀ v, isVpn v → (s.take q h l).pte d v = s.pte d v :=
    fun d hd v hv => take_pte hq c.inv.wf (.inl rfl) ((c.inv.dirs d).mpr hd) hv
  have hnot : ∀ d ∈ D, ∀ v, isVpn v → ¬ MapsTo (s.pte d v) q := by
    intro d hd v hv hm
    have := mapped_of hd hv hm
    simp [c.not_mapped hq] at this
  have hne : ∀ p, R p = .user → p ≠ q := by
    rintro p hp rfl
    simp [hp] at hq
  have hnew : t.pte d v = leafEntry q perm := by
    rw [e.pte d hd v hv, setEntry, if_pos ⟨rfl, rfl⟩]
  have hold : ∀ d' ∈ D, ∀ v', isVpn v' → ¬ (d' = d ∧ v' = v) → t.pte d' v' = s.pte d' v' := by
    intro d' hd' v' hv' hn
    rw [e.pte d' hd' v' hv', setEntry, if_neg hn, hpte d' hd' v' hv']
  have hqm : MapsTo (t.pte d v) q := by
    rw [hnew, mapsTo_leafEntry hperm]
  have hqu : R' q = .user := e.inv.mapped (mapped_of hd hv hqm)
  have hmaps : t.maps D q = {(d, v)} := by
    ext ⟨d', v'⟩
    rw [mem_maps, Finset.mem_singleton, Prod.mk.injEq]
    constructor
    · rintro ⟨⟨hd', hv'⟩, hm⟩
      by_contra hn
      rw [hold d' hd' v' hv' hn] at hm
      exact hnot d' hd' v' hv' hm
    · rintro ⟨rfl, rfl⟩
      exact ⟨⟨hd, hv⟩, hqm⟩
  have hexcl : Exclusive (setEntry (s.take q h l).pte d v (leafEntry q perm)) D := by
    refine (c.excl.congr hpte).setEntry ?_ ?_
    · rwa [has_pteCow_leafEntry, has_pteW_leafEntry]
    · intro p hp d' hd' v' hv' _ hm
      obtain rfl := (mapsTo_leafEntry hperm).mp hp
      rw [hpte d' hd' v' hv'] at hm
      exact absurd hm (hnot d' hd' v' hv')
  refine ⟨?_, hnew, ⟨e.inv, fun p hp => ?_, hexcl.congr e.pte⟩, fun d' hd' v' hv' => ?_,
    fun p => ?_, ?_⟩
  · rw [e.inv.refs q hqu, hmaps]
    simp
  · rcases eq_or_ne p q with rfl | hpq
    · exact mapped_of hd hv hqm
    · obtain ⟨hu, hm⟩ := (e.user p).mp hp
      rw [Function.update_of_ne hpq] at hu
      refine hm ?_
      rw [maps_congr hpte]
      exact c.full p hu
  · unfold setView setEntry
    split
    · rename_i hx
      obtain ⟨rfl, rfl⟩ := hx
      rw [view, hnew, pageOf_leafEntry hperm, Option.map_some, e.data q hqu]
      simp [State.take]
    · rename_i hx
      refine view_congr (by rw [hold d' hd' v' hv' hx]) fun p hm => ?_
      have hu : R p = .user := c.inv.mapped (mapped_of hd' hv' hm)
      have ht : MapsTo (t.pte d' v') p := by rwa [hold d' hd' v' hv' hx]
      rw [e.data p (e.inv.mapped (mapped_of hd' hv' ht)), take_word (hne p hu)]
  · rw [e.other_iff]
    rcases eq_or_ne p q with rfl | hpq
    · simp [hq]
    · rw [Function.update_of_ne hpq]
  · exact e.freed.log

theorem CowInv.insertFresh (c : CowInv s R D) (hq : R q = .free) (hd : d ∈ D)
    (hv : isVpn (la / pgsize)) (hperm : perm < 1024)
    (hcow : has perm pteCow = true → has perm pteW = false) :
    ∃ ret t, (s.take q h l).pageInsert d q la perm = (ret, t) ∧
      ((ret ≠ 0 ∧ ∃ R', Acts s R D (view s) (t.freePage q) R') ∨
        ret = 0 ∧ t.ref q = 1 ∧ t.pte d (la / pgsize) = leafEntry q perm ∧
          ∃ R', Acts s R D (setView (view s) d (la / pgsize) h) t R') := by
  have hu : Function.update R q .user q = .user := Function.update_self ..
  obtain ⟨ret, t, R', hs, ⟨rfl, g, -⟩ | ⟨rfl, e⟩⟩ :=
    pageInsert_spec (c.inv.takeUser hq (f := h) (l := l)) hd hv hu hperm
  · exact ⟨_, t, hs, .inl ⟨by decide, _, c.giveBack hq g⟩⟩
  · obtain ⟨h₁, h₂, h₃⟩ := c.enter hq hd hv hperm hcow e
    exact ⟨_, t, hs, .inr ⟨rfl, h₁, h₂, R', h₃⟩⟩

end Fresh

section Fault

variable {s t : State} {R R' : ℕ → Role} {D : Finset ℕ} {d v l la perm : ℕ} {write : Bool}

theorem CowInv.answers (c : CowInv s R D) (l : List (Option ℕ)) :
    Acts s R D (view s) { s with answers := l } R := c.acts_grow (.answers c.inv.wf l)

theorem pgdirAllocPage_spec (c : CowInv s R D) (hd : d ∈ D) (hv : isVpn (la / pgsize))
    (hperm : perm < 1024) (hcow : has perm pteCow = true → has perm pteW = false) :
    ∃ o t R', s.pgdirAllocPage d la perm = some (o, t) ∧
      (o = none ∧ Acts s R D (view s) t R' ∨
        ∃ q h, o = some q ∧ t.ref q = 1 ∧ t.pte d (la / pgsize) = leafEntry q perm ∧
          Acts s R D (setView (view s) d (la / pgsize) h) t R') := by
  unfold State.pgdirAllocPage
  rcases allocPage_cases s with ⟨l, hs⟩ | ⟨q, l, hq, hs⟩
  · rw [hs]
    exact ⟨none, _, R, rfl, .inl ⟨rfl, c.answers l⟩⟩
  · rw [hs, ← take_self]
    have hq := (c.inv.wf.free q).mpr hq
    obtain ⟨ret, t, hi, ⟨hr, R', h⟩ | ⟨rfl, hr, hp, R', h⟩⟩ :=
      c.insertFresh (h := s.word q) (l := l) hq hd hv hperm hcow
    · dsimp only
      rw [hi]
      exact ⟨none, _, R', by simp [hr], .inl ⟨rfl, h⟩⟩
    · dsimp only
      rw [hi]
      exact ⟨some q, t, R', by simp [hr], .inr ⟨q, _, rfl, hr, hp, h⟩⟩

/-- What a fault leaves behind: all contents are kept, apart from a page that was not there. -/
def Faults (s : State) (R : ℕ → Role) (D : Finset ℕ) (d v : ℕ) (write : Bool) (ret : ℤ)
    (t : State) : Prop :=
  ∃ R' g, Acts s R D g t R' ∧
    (g = view s ∨ ret = 0 ∧ view s d v = none ∧ ∃ h, g = setView (view s) d v h) ∧
    (ret = 0 → has (t.pte d v) pteV = true ∧ (write = true → has (t.pte d v) pteW = true))

theorem CowInv.upgrade {page : ℕ} (c : CowInv s R D) (hd : d ∈ D) (hv : isVpn (la / pgsize))
    (hl : R l = .leaf d (idx1 (la / pgsize)) (idx0 (la / pgsize)))
    (hm : MapsTo (s.pte d (la / pgsize)) page) (hr : s.ref page ≤ 1) (hperm : perm < 1024)
    (hcow : has perm pteCow = true → has perm pteW = false) :
    ∃ t R', s.pageInsert d page la perm = (0, t) ∧ Acts s R D (view s) t R' ∧
      t.pte d (la / pgsize) = leafEntry page perm := by
  obtain ⟨ret, t, R', hs, ⟨-, -, hn⟩ | ⟨rfl, e⟩⟩ :=
    pageInsert_spec c.inv hd hv (c.inv.mapped (mapped_of hd hv hm)) hperm
  · exact absurd hl (hn l)
  have hnew : t.pte d (la / pgsize) = leafEntry page perm := by
    rw [e.pte d hd _ hv, setEntry, if_pos ⟨rfl, rfl⟩]
  refine ⟨t, R', hs, ?_, hnew⟩
  refine c.acts e (c.excl.setEntry ?_ ?_) fun d' hd' v' hv' => ⟨d', v', ?_, rfl⟩
  · rwa [has_pteCow_leafEntry, has_pteW_leafEntry]
  · intro p hp d' hd' v' hv' hne hm'
    obtain rfl := (mapsTo_leafEntry hperm).mp hp
    exact absurd (c.unique hr hd' hv' hd hv hm' hm) hne
  · unfold setEntry
    split
    · rename_i hx
      obtain ⟨rfl, rfl⟩ := hx
      rw [pageOf_leafEntry hperm, mapsTo_iff_pageOf.mp hm]
    · rfl

theorem copyOnWrite_spec (c : CowInv s R D) (hd : d ∈ D) (hv : isVpn (la / pgsize))
    (hl : R l = .leaf d (idx1 (la / pgsize)) (idx0 (la / pgsize)))
    (hV : has (s.pte d (la / pgsize)) pteV = true) (hperm : perm < 1024)
    (hcow : has perm pteCow = false) (hw : has perm pteW = true) :
    ∃ ret t, copyOnWrite d la perm (l, idx (la / pgsize)) s = (ret, t) ∧
      Faults s R D d (la / pgsize) true ret t := by
  have he : s.read (l, idx (la / pgsize)) = s.pte d (la / pgsize) := (c.inv.wf.pte_leaf hl).symm
  have hno : ∀ x : ℤ, x = -eNoMem → x = 0 → False := by
    rintro x rfl h
    exact absurd h (by decide)
  have hcow' : has perm pteCow = true → has perm pteW = false := by simp [hcow]
  have hnew : ∀ q, has (leafEntry q perm) pteV = true ∧
      (true = true → has (leafEntry q perm) pteW = true) := by
    intro q
    rw [has_pteW_leafEntry]
    exact ⟨has_leafEntry, fun _ => hw⟩
  unfold copyOnWrite
  rw [he]
  split
  · exact ⟨_, s, rfl, R, view s, .refl c, .inl rfl, fun h => (hno _ rfl h).elim⟩
  have hm : MapsTo (s.pte d (la / pgsize)) (pte2page (s.pte d (la / pgsize))) := ⟨hV, rfl⟩
  dsimp only
  split
  · rcases allocPage_cases s with ⟨l', hs⟩ | ⟨q, l', hq, hs⟩
    · rw [hs]
      exact ⟨_, _, rfl, R, view s, c.answers l', .inl rfl, fun h => (hno _ rfl h).elim⟩
    · rw [hs]
      have hq := (c.inv.wf.free q).mpr hq
      obtain ⟨ret, t, hi, hres⟩ := c.insertFresh
        (h := s.word (pte2page (s.pte d (la / pgsize)))) (l := l') hq hd hv hperm hcow'
      have hi' : State.pageInsert (State.setPage { s with free := s.free.erase q, answers := l' } q
          (s.word (pte2page (s.pte d (la / pgsize))))) d q la perm = (ret, t) := hi
      dsimp only
      rw [hi']
      rcases hres with ⟨hr, R', h⟩ | ⟨rfl, -, hp, R', h⟩
      · refine ⟨_, _, if_pos hr, R', view s, h, .inl rfl, fun h => (hno _ rfl h).elim⟩
      · refine ⟨0, t, by simp, R', view s, h.congr fun d' hd' v' hv' => ?_, .inl rfl, fun _ => ?_⟩
        · unfold setView setEntry
          split
          · rename_i hx
            obtain ⟨rfl, rfl⟩ := hx
            rw [view, mapsTo_iff_pageOf.mp hm]
            rfl
          · rfl
        · rw [hp]
          exact hnew q
  · rename_i hr
    obtain ⟨t, R', hs, h, hp⟩ := c.upgrade hd hv hl hm (by omega) hperm hcow'
    rw [hs]
    refine ⟨0, t, rfl, R', view s, h, .inl rfl, fun _ => ?_⟩
    rw [hp]
    exact hnew _

/-- The body of `do_pgfault`. -/
theorem handleFault_spec (la : ℕ) (write : Bool) (c : CowInv s R D) (hd : d ∈ D)
    (hv : isVpn (la / pgsize)) (hperm : perm < 1024) (hcow : has perm pteCow = false)
    (hw : write = true → has perm pteW = true) :
    ∃ ret t, handleFault d la perm write s = some (ret, t) ∧
      Faults s R D d (la / pgsize) write ret t := by
  have hno : ∀ x : ℤ, x = -eNoMem → x = 0 → False := by
    rintro x rfl h
    exact absurd h (by decide)
  have hcow' : has perm pteCow = true → has perm pteW = false := by simp [hcow]
  obtain ⟨o, s₁, R₁, hget, w⟩ := getPte_spec true c.inv.wf ((c.inv.dirs d).mpr hd) hv
  have a₁ := c.acts_grow w.grow
  have hview : view s₁ d (la / pgsize) = view s d (la / pgsize) := a₁.view d hd _ hv
  have lift : ∀ {ret t}, Faults s₁ R₁ D d (la / pgsize) write ret t →
      Faults s R D d (la / pgsize) write ret t := by
    rintro ret t ⟨R', g, h, hg, hpost⟩
    rcases hg with rfl | ⟨hr, hn, h', rfl⟩
    · exact ⟨R', view s, a₁.trans (h.congr a₁.view), .inl rfl, hpost⟩
    · refine ⟨R', setView (view s) d (la / pgsize) h', a₁.trans (h.congr fun d' hd' v' hv' => ?_),
        .inr ⟨hr, hview ▸ hn, h', rfl⟩, hpost⟩
      simp only [setView, setEntry, a₁.view d' hd' v' hv']
  unfold handleFault
  rw [hget]
  cases o with
  | none => exact ⟨_, s₁, rfl, R₁, view s, a₁, .inl rfl, fun h => (hno _ rfl h).elim⟩
  | some l =>
    have c₁ := a₁.cow
    have hl := w.found l rfl
    have he : s₁.read (l, idx (la / pgsize)) = s₁.pte d (la / pgsize) :=
      (c₁.inv.wf.pte_leaf hl).symm
    simp only [Option.map_some]
    rw [he]
    split
    · rename_i hz
      obtain ⟨o, t, R', hs, ⟨rfl, h⟩ | ⟨q, h, rfl, -, hp, hact⟩⟩ :=
        pgdirAllocPage_spec c₁ hd hv hperm hcow'
      · rw [hs]
        exact ⟨_, t, rfl, lift ⟨R', view s₁, h, .inl rfl, fun h => (hno _ rfl h).elim⟩⟩
      · rw [hs]
        refine ⟨_, t, rfl, lift ⟨R', _, hact, .inr ⟨rfl, ?_, h, rfl⟩, fun _ => ?_⟩⟩
        · simp [view, hz]
        · rw [hp, has_pteW_leafEntry]
          exact ⟨has_leafEntry, hw⟩
    · rename_i hz
      have hV : has (s₁.pte d (la / pgsize)) pteV = true := by
        rcases c₁.inv.wf.pte_zero_or ((c₁.inv.dirs d).mpr hd) hv with h₀ | h₀
        · exact absurd h₀ hz
        · exact h₀.1
      split
      · rename_i hx
        obtain rfl : write = true := by
          simp only [Bool.and_eq_true] at hx
          exact hx.1.1
        obtain ⟨ret, t, hs, hf⟩ := copyOnWrite_spec c₁ hd hv hl hV hperm hcow (hw rfl)
        rw [hs]
        exact ⟨ret, t, rfl, lift hf⟩
      · rename_i hx
        refine ⟨_, s₁, rfl, lift ⟨R₁, view s₁, .refl c₁, .inl rfl, fun _ => ⟨hV, fun hwr => ?_⟩⟩⟩
        simpa [hwr, hV] using hx

end Fault

section Mm

variable {s : State} {R : ℕ → Role} {D : Finset ℕ} {mm : Mm} {addr errorCode : ℕ}

/-- `do_pgfault` returns, and keeps all contents apart from a page that it adds. -/
theorem doPgfault_spec (errorCode addr : ℕ) (c : CowInv s R D) (h : mm.Ok) (hd : mm.pgdir ∈ D) :
    ∃ ret mm' t, doPgfault mm errorCode addr s = some (ret, mm', t) ∧ mm.Same mm' ∧
      Faults s R D mm.pgdir (addr / pgsize) (errorCode = causeStorePageFault) ret t ∧
      (ret = 0 → ∃ vma ∈ mm.mmapList, vma.contains addr = true) := by
  have hfail : ∀ write, Faults s R D mm.pgdir (addr / pgsize) write (-eInval) s := fun write =>
    ⟨R, view s, .refl c, .inl rfl, fun h => absurd h (by decide)⟩
  have hno : (-eInval : ℤ) = 0 → ∃ vma ∈ mm.mmapList, vma.contains addr = true :=
    fun h => absurd h (by decide)
  unfold doPgfault
  obtain ⟨hsame, hfound⟩ := findVma_spec addr h
  rcases hf : mm.findVma addr with ⟨o, mm'⟩
  rw [hf] at hsame hfound
  cases o with
  | none => exact ⟨_, mm', s, rfl, hsame, hfail _, hno⟩
  | some vma =>
    obtain ⟨hmem, hc⟩ := hfound vma rfl
    have hle : ¬ vma.vmStart > addr := by
      rw [Vma.contains_iff] at hc
      omega
    dsimp only
    rw [if_neg hle]
    split
    · exact ⟨_, mm', s, rfl, hsame, hfail _, hno⟩
    · rename_i hwr
      obtain ⟨hp, hcow, hw⟩ := vmaPerm_spec vma.vmFlags
      have hround : rounddown addr pgsize / pgsize = addr / pgsize := by
        unfold rounddown pgsize
        omega
      have hv := (h.vmas vma hmem).isVpn hc
      obtain ⟨ret, t, hs, hfaults⟩ := handleFault_spec (rounddown addr pgsize)
        (errorCode = causeStorePageFault) c hd (by rwa [hround]) hp hcow
        (fun hx => hw (by simpa [hx] using hwr))
      have hpg : mm'.pgdir = mm.pgdir := hsame.pgdir
      rw [hround] at hfaults
      rw [hpg, hs]
      exact ⟨ret, mm', t, rfl, hsame, hfaults, fun _ => ⟨vma, hmem, hc⟩⟩

end Mm

section Copy

variable {s x t : State} {R R' : ℕ → Role} {D : Finset ℕ}
  {a b d e l l' la page perm to' from' start end' v : ℕ}

theorem CowInv.share (c : CowInv s R D) (hd : d ∈ D) (hto : to' ∈ D) (hv : isVpn (la / pgsize))
    (hl : R l = .leaf to' (idx1 (la / pgsize)) (idx0 (la / pgsize)))
    (hm : MapsTo (s.pte d (la / pgsize)) page) (hperm : perm < 1024) (hw : has perm pteW = false)
    (hd' : d ≠ to' → has (s.pte d (la / pgsize)) pteW = false) :
    ∃ t R', s.pageInsert to' page la perm = (0, t) ∧
      t.pte to' (la / pgsize) = leafEntry page perm ∧
      (∀ p, R p ≠ .free → R p ≠ .user → R' p = R p) ∧
      Acts s R D (setEntry (view s) to' (la / pgsize) (view s d (la / pgsize))) t R' := by
  obtain ⟨ret, t, R', hs, ⟨-, -, hn⟩ | ⟨rfl, ed⟩⟩ :=
    pageInsert_spec c.inv hto hv (c.inv.mapped (mapped_of hd hv hm)) hperm
  · exact absurd hl (hn l)
  refine ⟨t, R', hs, ?_, ed.role, ?_⟩
  · rw [ed.pte to' hto _ hv, setEntry, if_pos ⟨rfl, rfl⟩]
  refine c.acts ed (c.excl.setEntry ?_ ?_) fun d₁ hd₁ v₁ hv₁ => ?_
  · rw [has_pteW_leafEntry]
    exact fun _ => hw
  · intro p hp d₁ hd₁ v₁ hv₁ hne hm₁
    rw [has_pteW_leafEntry]
    refine ⟨hw, ?_⟩
    obtain rfl := (mapsTo_leafEntry hperm).mp hp
    by_cases hx : (d₁, v₁) = (d, la / pgsize)
    · rw [Prod.mk.injEq] at hx
      rw [hx.1, hx.2]
      refine hd' fun hdt => hne ?_
      rw [hx.1, hx.2, hdt]
    · exact c.excl.shared d₁ hd₁ v₁ hv₁ d hd _ hv hx p hm₁ hm
  · unfold setEntry
    split
    · exact ⟨d, la / pgsize, by rw [pageOf_leafEntry hperm, mapsTo_iff_pageOf.mp hm], rfl⟩
    · exact ⟨d₁, v₁, rfl, rfl⟩

/-- The body of `copy_range` for one page. -/
theorem copyPage_spec (c : CowInv s R D) (hfrom : from' ∈ D) (hto : to' ∈ D)
    (hv : isVpn (la / pgsize)) (hl : R l = .leaf from' (idx1 (la / pgsize)) (idx0 (la / pgsize)))
    (hl' : R l' = .leaf to' (idx1 (la / pgsize)) (idx0 (la / pgsize)))
    (hV : has (s.pte from' (la / pgsize)) pteV = true) :
    ∃ t R', copyPage to' from' la true (l, idx (la / pgsize)) s = some t ∧
      Acts s R D (setEntry (view s) to' (la / pgsize) (view s from' (la / pgsize))) t R' := by
  have he : s.read (l, idx (la / pgsize)) = s.pte from' (la / pgsize) :=
    (c.inv.wf.pte_leaf hl).symm
  have hm : MapsTo (s.pte from' (la / pgsize)) (pte2page (s.pte from' (la / pgsize))) := ⟨hV, rfl⟩
  unfold copyPage
  rw [he]
  simp only [if_true]
  by_cases hw : has (s.pte from' (la / pgsize) &&& (pteUser ||| pteA ||| pteD)) pteW = true
  · -- the parent's own entry loses `PTE_W` first
    rw [if_pos hw]
    obtain ⟨t₁, R₁, hs₁, hp₁, hrole, h₁⟩ := c.share hfrom hfrom hv hl hm
      (cowPerm_lt (copyPerm_lt (p := s.pte from' (la / pgsize)))) has_pteW_cowPerm
      (fun h => absurd rfl h)
    rw [setEntry_self] at h₁
    rw [hs₁]
    have hm₁ : MapsTo (t₁.pte from' (la / pgsize)) (pte2page (s.pte from' (la / pgsize))) := by
      rw [hp₁, mapsTo_leafEntry (cowPerm_lt copyPerm_lt)]
    have hw₁ : has (t₁.pte from' (la / pgsize)) pteW = false := by
      rw [hp₁, has_pteW_leafEntry]
      exact has_pteW_cowPerm
    obtain ⟨t₂, R₂, hs₂, -, -, h₂⟩ := h₁.cow.share hfrom hto hv
      ((hrole l' (by simp [hl']) (by simp [hl'])).trans hl') hm₁
      (cowPerm_lt (copyPerm_lt (p := s.pte from' (la / pgsize)))) has_pteW_cowPerm (fun _ => hw₁)
    dsimp only
    rw [hs₂]
    refine ⟨t₂, R₂, by simp, h₁.trans (h₂.congr fun d hd v hv' => ?_)⟩
    simp only [setEntry, h₁.view d hd v hv', h₁.view from' hfrom _ hv]
  · rw [if_neg hw]
    have hw : has (s.pte from' (la / pgsize) &&& (pteUser ||| pteA ||| pteD)) pteW = false := by
      simpa using hw
    have hwf := hw
    rw [has_pteW_copyPerm] at hwf
    by_cases hcow : has (s.pte from' (la / pgsize)) pteCow = true
    · rw [if_pos hcow]
      obtain ⟨t, R', hs, -, -, h⟩ := c.share hfrom hto hv hl' hm (orCow_lt copyPerm_lt)
        (has_pteW_orCow hw) (fun _ => hwf)
      rw [hs]
      exact ⟨t, R', by simp, h⟩
    · rw [if_neg hcow]
      obtain ⟨t, R', hs, -, -, h⟩ := c.share hfrom hto hv hl' hm copyPerm_lt hw (fun _ => hwf)
      rw [hs]
      exact ⟨t, R', by simp, h⟩

/-- The contents when the pages `a` to `b` of `from'` are shown to `to'` as well. -/
def sharedView (s : State) (to' from' a b : ℕ) : ℕ → ℕ → Option (ℕ → ℕ) := fun d v =>
  if d = to' ∧ a ≤ v ∧ v < b ∧ (view s from' v).isSome then view s from' v else view s d v

theorem sharedView_from : sharedView s to' from' a b from' v = view s from' v := by
  unfold sharedView
  split <;> rfl

theorem sharedView_empty : sharedView s to' from' a a = view s := by
  funext d v
  rw [sharedView, if_neg]
  omega

theorem sharedView_skip (hbe : b ≤ e) (hz : view s from' v = none ∨ v < b ∨ e ≤ v) :
    sharedView s to' from' a b d v = sharedView s to' from' a e d v := by
  have hc : (d = to' ∧ a ≤ v ∧ v < b ∧ (view s from' v).isSome) ↔
      (d = to' ∧ a ≤ v ∧ v < e ∧ (view s from' v).isSome) := by
    rcases hz with hz | hz
    · simp [hz]
    · constructor
      · rintro ⟨h₁, h₂, h₃, h₄⟩
        exact ⟨h₁, h₂, by omega, h₄⟩
      · rintro ⟨h₁, h₂, h₃, h₄⟩
        exact ⟨h₁, h₂, by omega, h₄⟩
  unfold sharedView
  simp only [hc]

theorem sharedView_succ (hab : a ≤ b) (hs : (view s from' b).isSome) :
    setEntry (sharedView s to' from' a b) to' b (view s from' b) =
      sharedView s to' from' a (b + 1) := by
  funext d v
  unfold setEntry
  split
  · rename_i hx
    rw [sharedView, hx.2, if_pos ⟨hx.1, hab, by omega, hs⟩]
  · rename_i hx
    unfold sharedView
    by_cases hc : d = to' ∧ a ≤ v ∧ v < b ∧ (view s from' v).isSome
    · rw [if_pos hc, if_pos ⟨hc.1, hc.2.1, by omega, hc.2.2.2⟩]
    · rw [if_neg hc, if_neg]
      rintro ⟨h₁, h₂, h₃, h₄⟩
      have : v ≠ b := fun hv => hx ⟨h₁, hv⟩
      exact hc ⟨h₁, h₂, by omega, h₄⟩

/-- The first pages up to `b` are shared. -/
def Shared (s : State) (R : ℕ → Role) (D : Finset ℕ) (to' from' a b : ℕ) (t : State) : Prop :=
  ∃ R', Acts s R D (sharedView s to' from' a b) t R'

theorem Shared.skip (h : Shared s R D to' from' a b x) (hbe : b ≤ e)
    (hz : ∀ v, b ≤ v → v < e → isVpn v → view x from' v = none) (hfrom : from' ∈ D) :
    Shared s R D to' from' a e x := by
  obtain ⟨R', h⟩ := h
  refine ⟨R', h.congr fun d hd v hv => sharedView_skip hbe ?_⟩
  by_cases hx : b ≤ v ∧ v < e
  · refine .inl ?_
    rw [← hz v hx.1 hx.2 hv, h.view from' hfrom v hv, sharedView_from]
  · exact .inr (by omega)

/-- One iteration of `copy_range`: it fails for want of a table, or shares the pages up to its
next address. -/
theorem copyStep_spec (hfrom : from' ∈ D) (hto : to' ∈ D) (hu : userAccess start end')
    (ha : a % pgsize = 0) (hsa : start ≤ a) (hae : a < end') (he : end' % pgsize = 0)
    (h : Shared s R D to' from' (start / pgsize) (a / pgsize) x) :
    (∃ y, copyStep to' from' end' true (a, x) = .inr (some (-eNoMem, y)) ∧
        Shared s R D to' from' (start / pgsize) (a / pgsize) y) ∨
      ∃ y b, copyStep to' from' end' true (a, x) = y.again b end' (some (0, y)) ∧
        b % pgsize = 0 ∧ a < b ∧
        Shared s R D to' from' (start / pgsize) (min b end' / pgsize) y := by
  obtain ⟨R', hact⟩ := id h
  have hv : isVpn (a / pgsize) := hu.isVpn (page_lt ha he hae)
  have hsa' : start / pgsize ≤ a / pgsize := Nat.div_le_div_right hsa
  have c := hact.cow
  unfold copyStep
  rcases getPte_false c.inv hfrom hv with ⟨l, hget, hl⟩ | ⟨hget, hn⟩
  · rw [hget]
    have hlt : a < a + pgsize := by simp [pgsize]
    have hb : min (a + pgsize) end' / pgsize = a / pgsize + 1 := by
      unfold pgsize at *
      omega
    have hr : x.read (l, idx (a / pgsize)) = x.pte from' (a / pgsize) :=
      (c.inv.wf.pte_leaf hl).symm
    dsimp only
    rw [hr]
    by_cases hV : has (x.pte from' (a / pgsize)) pteV = true
    · rw [if_pos hV]
      obtain ⟨o, y, R₁, hget', w⟩ := getPte_spec true c.inv.wf ((c.inv.dirs to').mpr hto) hv
      have h₁ := c.acts_grow w.grow
      rw [hget']
      cases o with
      | none => exact .inl ⟨y, rfl, R₁, hact.trans (h₁.congr hact.view)⟩
      | some l' =>
        have hV' : has (y.pte from' (a / pgsize)) pteV = true := by
          rw [w.grow.pte_eq c.inv from' hfrom _ hv]
          exact hV
        obtain ⟨t, R₂, hs, h₂⟩ := copyPage_spec h₁.cow hfrom hto hv
          ((w.grow.role l (by simp [hl])).trans hl) (w.found l' rfl) hV'
        simp only [Option.map_some]
        rw [hs]
        refine .inr ⟨t, a + pgsize, rfl, (page_succ ha).1, hlt, ?_⟩
        rw [hb]
        have hview : ∀ d ∈ D, ∀ v, isVpn v →
            view y d v = sharedView s to' from' (start / pgsize) (a / pgsize) d v :=
          fun d hd v hv => (h₁.view d hd v hv).trans (hact.view d hd v hv)
        have hfv : view y from' (a / pgsize) = view s from' (a / pgsize) := by
          rw [hview from' hfrom _ hv, sharedView_from]
        have hsome : (view s from' (a / pgsize)).isSome = true := by
          rw [← hfv]
          simp [view, pageOf, hV']
        refine ⟨R₂, hact.trans (h₁.trans (h₂.congr fun d hd v hv' => ?_))⟩
        rw [← sharedView_succ hsa' hsome]
        simp only [setEntry, hfv, hview d hd v hv']
    · rw [if_neg hV]
      refine .inr ⟨x, a + pgsize, rfl, (page_succ ha).1, hlt, ?_⟩
      rw [hb]
      refine h.skip (Nat.le_succ _) (fun v h₁ h₂ _ => ?_) hfrom
      obtain rfl : v = a / pgsize := by omega
      simp [view, pageOf, hV]
  · rw [hget]
    obtain ⟨hb, hab, hsame⟩ := page_round ha
    refine .inr ⟨x, rounddown (a + ptsize) ptsize, rfl, hb, hab, ?_⟩
    refine h.skip (page_le_min hab hae) (fun v h₁ h₂ hv' => ?_) hfrom
    rw [view, pte_skip c.inv hfrom hn hv' (hsame v h₁ (h₂.trans_le page_min_le))]
    simp

/-- `copy_range` shares all pages of its range, or returns `-E_NO_MEM` after some of them; its
assertions hold. -/
theorem copyRange_spec (c : CowInv s R D) (hfrom : from' ∈ D) (hto : to' ∈ D)
    (hs : start % pgsize = 0) (he : end' % pgsize = 0) (hu : userAccess start end') :
    ∃ ret t b, copyRange to' from' start end' true s = some (ret, t) ∧
      (ret = 0 ∧ b = end' / pgsize ∨ ret ≠ 0 ∧ b ≤ end' / pgsize) ∧
      Shared s R D to' from' (start / pgsize) b t := by
  have hspec : ∃ r, iterate (copyStep to' from' end' true) (end' - start + 1) (start, s) = some r ∧
      ∃ ret t b, r = some (ret, t) ∧
        (ret = 0 ∧ b = end' / pgsize ∨ ret ≠ 0 ∧ b ≤ end' / pgsize) ∧
        Shared s R D to' from' (start / pgsize) b t := by
    apply iterate_spec (fun x => x.1 % pgsize = 0 ∧ start ≤ x.1 ∧ x.1 < end' ∧
      Shared s R D to' from' (start / pgsize) (x.1 / pgsize) x.2) (fun x => end' - x.1)
    · rintro ⟨a, x⟩ ⟨a', x'⟩ ⟨ha, hsa, hae, h⟩ hf
      rcases copyStep_spec hfrom hto hu ha hsa hae he h with ⟨y, hy, -⟩ | ⟨y, b, hy, hb, hab, hc⟩
      · rw [hy] at hf
        simp at hf
      · rw [hy, State.again] at hf
        split at hf
        · rename_i hbe
          obtain ⟨rfl, rfl⟩ : b = a' ∧ y = x' := by simpa using hf
          rw [min_eq_left hbe.2.le] at hc
          refine ⟨⟨hb, by dsimp only; omega, hbe.2, hc⟩, ?_⟩
          dsimp only
          omega
        · simp at hf
    · rintro ⟨a, x⟩ r ⟨ha, hsa, hae, h⟩ hf
      rcases copyStep_spec hfrom hto hu ha hsa hae he h with ⟨y, hy, hc⟩ | ⟨y, b, hy, hb, hab, hc⟩
      · rw [hy] at hf
        refine ⟨-eNoMem, y, a / pgsize, by simpa using hf.symm, .inr ⟨by decide, ?_⟩, hc⟩
        exact Nat.div_le_div_right hae.le
      · rw [hy, State.again] at hf
        split at hf
        · simp at hf
        · rename_i hbe
          rw [min_eq_right (by omega)] at hc
          exact ⟨0, y, _, by simpa using hf.symm, .inl ⟨rfl, rfl⟩, hc⟩
    · refine ⟨hs, le_refl _, hu.2.1, R, ?_⟩
      rw [sharedView_empty]
      exact .refl c
    · simp
  obtain ⟨r, hr, ret, t, b, rfl, hb, h⟩ := hspec
  refine ⟨ret, t, b, ?_, hb, h⟩
  rw [copyRange, if_pos ⟨⟨hs, he⟩, hu⟩, hr]
  rfl

end Copy

section Unmap

variable {s : State} {R : ℕ → Role} {D : Finset ℕ} {d start end' : ℕ}

theorem CowInv.unmap (c : CowInv s R D) (hd : d ∈ D) (hs : start % pgsize = 0)
    (he : end' % pgsize = 0) (hu : userAccess start end') :
    ∃ t R', s.unmapRange d start end' = some t ∧
      Acts s R D (clearRange (view s) none d (start / pgsize) (end' / pgsize)) t R' := by
  obtain ⟨t, R', ht, e, -⟩ := unmapRange_spec c.inv hd hs he hu
  refine ⟨t, R', ht, c.edit e c.excl.clearRange, fun d' hd' v' hv' => ?_,
    fun p => e.other_iff, e.freed.log⟩
  unfold clearRange
  split
  · rename_i hx
    rw [view, e.pte d' hd' v' hv', clearRange, if_pos hx]
    simp
  · rename_i hx
    refine view_edit e hd' hv' ?_
    rw [clearRange, if_neg hx]

end Unmap

section Setup

variable {s : State} {R : ℕ → Role} {D : Finset ℕ}

theorem bootPageTable_user {i : ℕ} (h : userPart i) : has (bootPageTable i) pteV = false := by
  rw [bootPageTable, if_neg]
  · simp
  · have := h.1
    omega

/-- A new, empty address space. -/
structure Opens (s : State) (R : ℕ → Role) (D : Finset ℕ) (q : ℕ) (t : State)
    (R' : ℕ → Role) : Prop where
  new : q ∉ D
  cow : CowInv t R' (insert q D)
  view : ∀ d ∈ D, ∀ v, isVpn v → view t d v = view s d v
  empty : ∀ v, isVpn v → Cow.view t q v = none
  other : ∀ p, R' p = .other ↔ R p = .other
  freed : t.freed = s.freed

theorem setupPgdir_spec {boot : ℕ → ℕ} (hb : ∀ i, userPart i → has (boot i) pteV = false)
    (c : CowInv s R D) : (∃ l, s.setupPgdir boot = (none, { s with answers := l })) ∨
      ∃ q t R', s.setupPgdir boot = (some q, t) ∧ Opens s R D q t R' := by
  unfold State.setupPgdir
  rcases allocPage_cases s with ⟨l, hs⟩ | ⟨q, l, hq, hs⟩
  · rw [hs]
    exact .inl ⟨l, rfl⟩
  have hq := (c.inv.wf.free q).mpr hq
  have hpte : ∀ d ∈ D, ∀ v, isVpn v → (s.take q boot l).pte d v = s.pte d v :=
    fun d hd v hv => take_pte hq c.inv.wf (.inr ⟨rfl, hb⟩) ((c.inv.dirs d).mpr hd) hv
  have hnew : ∀ v, isVpn v → (s.take q boot l).pte q v = 0 :=
    fun v hv => take_pte_new hb hv
  have hne : ∀ p, Function.update R q .root p = .user → R p = .user ∧ p ≠ q := by
    intro p hp
    rcases eq_or_ne p q with rfl | hpq
    · simp at hp
    · exact ⟨by simpa [hpq] using hp, hpq⟩
  rw [hs]
  refine .inr ⟨q, s.take q boot l, _, rfl, fun hD => ?_,
    ⟨c.inv.takeRoot hq hb, fun p hp => ?_, ?_, ?_⟩, fun d hd v hv => ?_, fun v hv => ?_,
    fun p => ?_, rfl⟩
  · simp [(c.inv.dirs q).mpr hD] at hq
  · obtain ⟨⟨d, v⟩, hx⟩ := c.full p (hne p hp).1
    obtain ⟨⟨hd, hv⟩, hm⟩ := mem_maps.mp hx
    refine mapped_of (Finset.mem_insert_of_mem hd) hv ?_
    rwa [hpte d hd v hv]
  · intro d hd v hv
    rcases Finset.mem_insert.mp hd with rfl | hd
    · rw [hnew v hv]
      simp
    · rw [hpte d hd v hv]
      exact c.excl.cow d hd v hv
  · intro d hd v hv d' hd' v' hv' hdv p
    rcases Finset.mem_insert.mp hd with rfl | hd
    · rw [hnew v hv]
      simp
    rcases Finset.mem_insert.mp hd' with rfl | hd'
    · rw [hnew v' hv']
      simp
    · rw [hpte d hd v hv, hpte d' hd' v' hv']
      exact c.excl.shared d hd v hv d' hd' v' hv' hdv p
  · refine view_congr (by rw [hpte d hd v hv]) fun p hm => take_word ?_
    rintro rfl
    simp [c.inv.mapped (mapped_of hd hv hm)] at hq
  · rw [Cow.view, hnew v hv]
    simp
  · rcases eq_or_ne p q with rfl | hpq
    · simp [hq]
    · rw [Function.update_of_ne hpq]

end Setup

end UCore.Cow
